import YieldVault.Attempts
import YieldVault.Runs

/-! The HTTP client of the web frontend: a request is fetched, and fetched again after a
pause when it has failed in a way that another attempt may cure. -/
namespace YieldVault.Frontend

open Attempts

inductive ApiErrorCode
  | networkError | timeout | aborted | authError | httpError | invalidResponse | unknownError
  deriving DecidableEq

structure ApiError where
  code : ApiErrorCode
  message : String
  userMessage : String
  retryable : Bool
  status : Option ℕ := none
  deriving DecidableEq

/-- What can be thrown while a request is made. -/
inductive Thrown
  | apiError (error : ApiError)
  | abort
  | typeError (message : String)
  | syntaxError (message : String)
  | error (message : String)
  | other

def RETRYABLE_STATUS_CODES : List ℕ := [408,425,429,500,502,503,504]

def AUTH_STATUS_CODES : List ℕ := [401,403]

def DEFAULT_USER_MESSAGE : String :=
  "Something went wrong while loading data. Please try again."

def isRetryableStatus (status : ℕ) : Bool := RETRYABLE_STATUS_CODES.contains status

/-- The error for what has been thrown, when there is no response to go by. -/
def normalizeThrown : Thrown → ApiError
  | .apiError error => error
  | .abort => ⟨.aborted,"The request was aborted.",
      "The request was cancelled. Please try again.",false,none⟩
  | .typeError message => ⟨.networkError,if message = "" then "Network request failed." else message,
      "We could not reach the server. Check your connection and try again.",true,none⟩
  | .syntaxError message => ⟨.invalidResponse,message,
      "We received an unexpected response from the server. Please try again.",false,none⟩
  | .error message => ⟨.unknownError,message,DEFAULT_USER_MESSAGE,false,none⟩
  | .other => ⟨.unknownError,"An unknown API error occurred.",DEFAULT_USER_MESSAGE,false,none⟩

/-- The error for a response that is not ok; nothing has been thrown yet. -/
def normalizeStatus (status : ℕ) : ApiError :=
  if status = 0 then normalizeThrown .other
  else if AUTH_STATUS_CODES.contains status then
    ⟨.authError,s!"Request failed with status {status}: authorization required.",
      "Your session has expired. Please reconnect your wallet to continue.",false,some status⟩
  else ⟨.httpError,s!"Request failed with status {status}.",
    if 500 ≤ status then "The service is temporarily unavailable. Please try again shortly."
    else "We could not complete that request. Please review your input and try again.",
    isRetryableStatus status,some status⟩

inductive HttpMethod
  | get | post | put | patch | delete
  deriving DecidableEq

inductive JsNumber
  | finite (value : ℚ)
  | infinity | negInfinity | nan

def JsNumber.above (k : ℕ) : JsNumber → Bool
  | .finite value => decide (k < value)
  | .infinity => true
  | .negInfinity | .nan => false

structure RetryOptions where
  attempts : Option JsNumber := none
  baseDelayMs : Option ℕ := none
  maxDelayMs : Option ℕ := none

/-- The part of a request that decides about its retries; `none` is `retry: false`. -/
structure ApiRequestContext where
  method : HttpMethod := .get
  url : String
  retry : Option RetryOptions := some {}

structure FullRetryOptions where
  attempts : JsNumber
  baseDelayMs : ℕ
  maxDelayMs : ℕ

def DEFAULT_RETRY_OPTIONS : FullRetryOptions := ⟨.finite 3,250,2000⟩

def getRetryOptions (request : ApiRequestContext) : Option FullRetryOptions :=
  request.retry.map fun retry => {
    attempts := retry.attempts.getD DEFAULT_RETRY_OPTIONS.attempts
    baseDelayMs := retry.baseDelayMs.getD DEFAULT_RETRY_OPTIONS.baseDelayMs
    maxDelayMs := retry.maxDelayMs.getD DEFAULT_RETRY_OPTIONS.maxDelayMs }

def HttpMethod.isSafe : HttpMethod → Bool
  | .get | .delete => true
  | _ => false

def shouldRetry (request : ApiRequestContext) (attempt : ℕ) (error : ApiError) : Bool :=
  match getRetryOptions request with
  | none => false
  | some retryOptions =>
    request.method.isSafe && error.retryable && retryOptions.attempts.above attempt

/-- `jitter` is `Math.round(Math.random() * 100)`. -/
def getRetryDelay (request : ApiRequestContext) (attempt jitter : ℕ) : ℕ :=
  let retryOptions := (getRetryOptions request).getD DEFAULT_RETRY_OPTIONS
  min (retryOptions.baseDelayMs*2^(attempt-1)+jitter) retryOptions.maxDelayMs

/-- What an attempt meets: the fetch throws, a response comes that is not ok, or one that
is ok, whose body is read and handed through the response interceptors. -/
inductive FetchReply (T : Type)
  | failed (thrown : Thrown)
  | notOk (status : ℕ)
  | ok (status : ℕ) (data : Except Thrown T)

inductive ApiTelemetryEvent
  | request (attempt : ℕ)
  | retry (attempt delayMs : ℕ) (reason : ApiErrorCode)
  | success (attempt status : ℕ)
  | error (attempt : ℕ) (error : ApiError)
  deriving DecidableEq

/-- Interceptors may throw. -/
structure ApiClient where
  requestInterceptors : List (ApiRequestContext → Except Thrown ApiRequestContext) := []
  errorInterceptors : List (ApiError → ApiRequestContext → Except Thrown ApiError) := []

/-- An attempt fails with an error, or with what an error interceptor has thrown. -/
inductive ApiFailure
  | error (error : ApiError)
  | interceptor (thrown : Thrown)

/-- Whether the attempt with this number is followed by another. -/
def ApiRequestContext.again (request : ApiRequestContext) (attempt : ℕ) : ApiFailure → Bool
  | .error error => shouldRetry request attempt error
  | .interceptor _ => false

namespace ApiClient

variable (client : ApiClient)

def prepare (request : ApiRequestContext) : Except Thrown ApiRequestContext :=
  client.requestInterceptors.foldlM (fun request interceptor => interceptor request) request

def intercepted (request : ApiRequestContext) (error : ApiError) : ApiFailure :=
  match client.errorInterceptors.foldlM (fun error interceptor => interceptor error request) error with
  | .ok error => .error error
  | .error thrown => .interceptor thrown

/-- The data of an attempt, or its error as the interceptors leave it. -/
def outcome {T : Type} (request : ApiRequestContext) : FetchReply T → Except ApiFailure T
  | .failed thrown => .error (client.intercepted request (normalizeThrown thrown))
  | .notOk status => .error (client.intercepted request (normalizeStatus status))
  | .ok _ (.error thrown) => .error (client.intercepted request (normalizeThrown thrown))
  | .ok _ (.ok data) => .ok data

end ApiClient

def FetchReply.status {T : Type} : FetchReply T → ℕ
  | .failed _ => 0
  | .notOk status | .ok status _ => status

structure ApiCall (T : Type) where
  request : ApiRequestContext
  outs : List (Except ApiFailure T) := []
  phase : Attempts.Phase ApiFailure T := .trying 1
  telemetry : List ApiTelemetryEvent := [.request 1]

/-- The reply to the open attempt, with the jitter should another follow, or the end of
the pause before the next attempt. -/
inductive ApiEvent (T : Type)
  | reply (reply : FetchReply T) (jitter : Fin 101)
  | wake

namespace ApiCall

variable {T : Type}

def told (c : ApiCall T) (k : ℕ) (reply : FetchReply T) (jitter : ℕ) :
    Except ApiFailure T → List ApiTelemetryEvent
  | .ok _ => [.success k reply.status]
  | .error (.error e) => if shouldRetry c.request k e then
      [.retry k (getRetryDelay c.request k jitter) e.code]
    else [.error k e]
  | .error (.interceptor _) => []

def step (client : ApiClient) : ApiEvent T → ApiCall T → ApiCall T
  | .reply reply jitter, c => match c.phase with
    | .trying k =>
      let r := client.outcome c.request reply
      { c with
        outs := c.outs ++ [r]
        phase := Attempts.settle c.request.again k r
        telemetry := c.telemetry ++ c.told k reply jitter r }
    | _ => c
  | .wake, c => match c.phase with
    | .waiting k => { c with
        phase := .trying (k+1), telemetry := c.telemetry ++ [.request (k+1)] }
    | _ => c

def run (client : ApiClient) (request : ApiRequestContext) (events : List (ApiEvent T)) :
    Except Thrown (ApiCall T) :=
  (client.prepare request).map fun prepared => Runs.run (step client) events { request := prepared }

end ApiCall

/-- The number of attempts that a limit leaves, where it leaves a number. -/
def JsNumber.budget : JsNumber → Option ℕ
  | .finite value => some (max 1 ⌈value⌉₊)
  | .infinity => none
  | .negInfinity | .nan => some 1

/-- How often a request may be fetched. -/
def ApiRequestContext.budget (request : ApiRequestContext) : Option ℕ :=
  match getRetryOptions request with
  | none => some 1
  | some retryOptions => if request.method.isSafe then retryOptions.attempts.budget else some 1

def ApiTelemetryEvent.isRequest : ApiTelemetryEvent → Bool
  | .request _ => true
  | _ => false

/-- The pauses of a call keep to its options. -/
def PausesWithin (request : ApiRequestContext) (log : List ApiTelemetryEvent) : Prop :=
  ∀ k d code, .retry k d code ∈ log →
    ∃ retryOptions, getRetryOptions request = some retryOptions ∧ d ≤ retryOptions.maxDelayMs ∧
      min (retryOptions.baseDelayMs*2^(k-1)) retryOptions.maxDelayMs ≤ d ∧
      d ≤ retryOptions.baseDelayMs*2^(k-1)+100

section Retries

variable {request : ApiRequestContext} {k n : ℕ} {e : ApiError} {failure : ApiFailure}

theorem shouldRetry_iff : shouldRetry request k e = true ↔ ∃ retryOptions,
    getRetryOptions request = some retryOptions ∧ request.method.isSafe = true ∧
      e.retryable = true ∧ retryOptions.attempts.above k = true := by
  unfold shouldRetry
  cases h : getRetryOptions request with
  | none => simp
  | some retryOptions => simp [and_assoc]

theorem again_iff : request.again k failure = true ↔
    ∃ e, failure = .error e ∧ shouldRetry request k e = true := by
  cases failure with
  | error e => simp [ApiRequestContext.again]
  | interceptor thrown => simp [ApiRequestContext.again]

theorem JsNumber.lt_budget {x : JsNumber} (h : x.above k = true) (hn : x.budget = some n) :
    k < n := by
  cases x with
  | finite value =>
    obtain rfl := Option.some.inj hn
    exact lt_max_of_lt_right (Nat.lt_ceil.mpr (of_decide_eq_true h))
  | infinity => cases hn
  | negInfinity => cases h
  | nan => cases h

theorem JsNumber.one_le_budget {x : JsNumber} (hn : x.budget = some n) : 1 ≤ n := by
  cases x with
  | finite value =>
    obtain rfl := Option.some.inj hn
    exact le_max_left _ _
  | infinity => cases hn
  | negInfinity => exact (Option.some.inj hn).le
  | nan => exact (Option.some.inj hn).le

/-- Another attempt is made only while the budget lasts. -/
theorem lt_budget (hn : request.budget = some n) (h : request.again k failure = true) : k < n := by
  obtain ⟨e,rfl,hretry⟩ := again_iff.mp h
  obtain ⟨retryOptions,hopts,hsafe,-,hk⟩ := shouldRetry_iff.mp hretry
  simp only [ApiRequestContext.budget,hopts,hsafe,if_true] at hn
  exact JsNumber.lt_budget hk hn

theorem one_le_budget (hn : request.budget = some n) : 1 ≤ n := by
  unfold ApiRequestContext.budget at hn
  split at hn
  · exact (Option.some.inj hn).le
  · split at hn
    · exact JsNumber.one_le_budget hn
    · exact (Option.some.inj hn).le

/-- The failures that are passed are fewer than the budget. -/
theorem Passed.lt_budget {es : List ApiFailure} (h : Passed request.again es)
    (hn : request.budget = some n) : es.length < n := by
  by_cases hne : es = []
  · rw [hne]
    exact one_le_budget hn
  · exact h.length_lt (fun _ _ => Frontend.lt_budget hn) hne

theorem getRetryDelay_bounds {retryOptions : FullRetryOptions}
    (h : getRetryOptions request = some retryOptions) (k : ℕ) (jitter : Fin 101) :
    getRetryDelay request k jitter ≤ retryOptions.maxDelayMs ∧
      min (retryOptions.baseDelayMs*2^(k-1)) retryOptions.maxDelayMs ≤
        getRetryDelay request k jitter ∧
      getRetryDelay request k jitter ≤ retryOptions.baseDelayMs*2^(k-1)+100 := by
  have hj := jitter.isLt
  simp only [getRetryDelay,h,Option.getD_some]
  refine ⟨min_le_right _ _,?_,?_⟩
  · apply min_le_min_right
    omega
  · apply (min_le_left _ _).trans
    omega

theorem retryable_cases (t : Thrown) (h : (normalizeThrown t).retryable = true) :
    (∃ m, t = .typeError m) ∨ ∃ e, t = .apiError e ∧ e.retryable = true := by
  cases t with
  | apiError e => exact Or.inr ⟨e,rfl,h⟩
  | typeError m => exact Or.inl ⟨m,rfl⟩
  | abort => simp [normalizeThrown] at h
  | syntaxError m => simp [normalizeThrown] at h
  | error m => simp [normalizeThrown] at h
  | other => simp [normalizeThrown] at h

theorem normalizeStatus_retryable (status : ℕ) :
    (normalizeStatus status).retryable = isRetryableStatus status := by
  unfold normalizeStatus
  split_ifs with h0 hauth
  · rw [h0]; rfl
  · have hmem : status = 401 ∨ status = 403 := by simpa [AUTH_STATUS_CODES] using hauth
    rcases hmem with rfl | rfl <;> rfl
  all_goals rfl

/-- A reply that another attempt may cure: the server was not reached, also while the body
was read, or it has answered with one of the codes for a passing trouble. An error of the client's
own class that was thrown, by a response interceptor say, tells itself whether it may be retried. -/
def Passing {T : Type} : FetchReply T → Prop
  | .failed t | .ok _ (.error t) => (∃ m, t = .typeError m) ∨ ∃ e, t = .apiError e ∧ e.retryable = true
  | .notOk status => isRetryableStatus status = true
  | .ok _ (.ok _) => False

theorem passing_of_again {T : Type} {client : ApiClient} (hclient : client.errorInterceptors = [])
    {reply : FetchReply T} (hout : client.outcome request reply = .error failure)
    (h : request.again k failure = true) : Passing reply := by
  obtain ⟨e,rfl,hshould⟩ := again_iff.mp h
  obtain ⟨-,-,-,hretry,-⟩ := shouldRetry_iff.mp hshould
  have hid : ∀ e', client.intercepted request e' = .error e' := by
    intro e'
    rw [ApiClient.intercepted,hclient]
    rfl
  cases reply with
  | failed t =>
    obtain rfl := ApiFailure.error.inj ((hid _).symm.trans (Except.error.inj hout))
    exact retryable_cases t hretry
  | notOk status =>
    obtain rfl := ApiFailure.error.inj ((hid _).symm.trans (Except.error.inj hout))
    rw [normalizeStatus_retryable] at hretry
    exact hretry
  | ok status data =>
    cases data with
    | ok a => cases hout
    | error t =>
      obtain rfl := ApiFailure.error.inj ((hid _).symm.trans (Except.error.inj hout))
      exact retryable_cases t hretry

end Retries

namespace ApiCall

variable {T : Type} {client : ApiClient} {c : ApiCall T} {k : ℕ}

/-- What holds of a call at any time. -/
structure Sound (c : ApiCall T) : Prop where
  trail : Trail c.request.again c.outs c.phase
  fetched : c.telemetry.countP (·.isRequest) = match c.phase with
    | .trying k => k
    | _ => c.outs.length
  pauses : PausesWithin c.request c.telemetry

theorem told_requests (c : ApiCall T) (k : ℕ) (reply : FetchReply T) (jitter : ℕ)
    (r : Except ApiFailure T) : (c.told k reply jitter r).countP (·.isRequest) = 0 := by
  cases r with
  | ok a => rfl
  | error failure =>
    cases failure with
    | error e =>
      unfold told
      simp only
      split_ifs <;> rfl
    | interceptor thrown => rfl

theorem pauses_told (h : PausesWithin c.request c.telemetry) (k : ℕ)
    (reply : FetchReply T) (jitter : Fin 101) (r : Except ApiFailure T) :
    PausesWithin c.request (c.telemetry ++ c.told k reply jitter r) := by
  intro n d code hmem
  rcases List.mem_append.mp hmem with hmem | hmem
  · exact h n d code hmem
  · cases r with
    | ok a => simp [told] at hmem
    | error failure =>
      cases failure with
      | error e =>
        simp only [told] at hmem
        split_ifs at hmem with hagain
        · obtain ⟨rfl,rfl,-⟩ := ApiTelemetryEvent.retry.inj (List.mem_singleton.mp hmem)
          obtain ⟨retryOptions,hopts,-⟩ := shouldRetry_iff.mp hagain
          exact ⟨retryOptions,hopts,getRetryDelay_bounds hopts n jitter⟩
        · simp at hmem
      | interceptor thrown => cases hmem

theorem sound_start (request : ApiRequestContext) : Sound ({ request := request } : ApiCall T) := by
  refine ⟨Trail.start,rfl,?_⟩
  intro k d code hmem
  simp at hmem

theorem step_reply (hk : c.phase = .trying k) (reply : FetchReply T) (jitter : Fin 101) :
    step client (.reply reply jitter) c = { c with
      outs := c.outs ++ [client.outcome c.request reply]
      phase := Attempts.settle c.request.again k (client.outcome c.request reply)
      telemetry := c.telemetry ++ c.told k reply jitter (client.outcome c.request reply) } := by
  simp only [step,hk]

theorem step_wake (hk : c.phase = .waiting k) : step client .wake c = { c with
    phase := .trying (k+1), telemetry := c.telemetry ++ [.request (k+1)] } := by
  simp only [step,hk]

theorem step_ended (h : c.phase.isEnded = true) (ev : ApiEvent T) : step client ev c = c := by
  cases hphase : c.phase with
  | ended r => cases ev <;> simp [step,hphase]
  | _ =>
    rw [hphase] at h
    cases h

@[simp] theorem step_request (ev : ApiEvent T) (c : ApiCall T) :
    (step client ev c).request = c.request := by
  cases ev with
  | reply reply jitter => cases hphase : c.phase <;> simp [step,hphase]
  | wake => cases hphase : c.phase <;> simp [step,hphase]

theorem step_sound (h : Sound c) (ev : ApiEvent T) : Sound (step client ev c) := by
  cases ev with
  | reply reply jitter =>
    cases hphase : c.phase with
    | trying k =>
      have htrail : Trail c.request.again c.outs (.trying k) := hphase ▸ h.trail
      have hf := h.fetched
      rw [hphase] at hf
      obtain ⟨es,houts,hlen,-⟩ := htrail.stands
      rw [step_reply hphase]
      refine ⟨htrail.settled _,?_,pauses_told h.pauses k reply jitter _⟩
      have hcount : (c.telemetry ++ c.told k reply jitter (client.outcome c.request reply)).countP
          (·.isRequest) = k := by
        rw [List.countP_append,told_requests]
        exact hf
      rw [hcount]
      have hk : k = (c.outs ++ [client.outcome c.request reply]).length := by
        simp [houts,hlen]
      rcases Attempts.settle_cases c.request.again k (client.outcome c.request reply) with
        hs | ⟨hs,-⟩
      · simpa only [hs] using hk
      · simpa only [hs] using hk
    | waiting k => simpa [step,hphase] using h
    | ended r => simpa [step,hphase] using h
  | wake =>
    cases hphase : c.phase with
    | waiting k =>
      have htrail : Trail c.request.again c.outs (.waiting k) := hphase ▸ h.trail
      have hf := h.fetched
      rw [hphase] at hf
      obtain ⟨es,houts,hlen,-⟩ := htrail.stands
      rw [step_wake hphase]
      refine ⟨htrail.woken,?_,?_⟩
      · rw [List.countP_append,hf,houts,hlen]
        simp [ApiTelemetryEvent.isRequest]
      · intro n d code hmem
        rcases List.mem_append.mp hmem with hmem | hmem
        · exact h.pauses n d code hmem
        · simp at hmem
    | trying k => simpa [step,hphase] using h
    | ended r => simpa [step,hphase] using h

theorem run_sound {request : ApiRequestContext} {events : List (ApiEvent T)}
    (h : run client request events = .ok c) : Sound c ∧ client.prepare request = .ok c.request := by
  unfold run at h
  cases hprepare : client.prepare request with
  | error t =>
    rw [hprepare] at h
    cases h
  | ok prepared =>
    rw [hprepare] at h
    obtain rfl := Except.ok.inj h
    have hstep : ∀ (c : ApiCall T) ev, Sound c ∧ c.request = prepared →
        Sound (step client ev c) ∧ (step client ev c).request = prepared :=
      fun _ ev h => ⟨step_sound h.1 ev,(step_request ev _).trans h.2⟩
    have hrun := Runs.invariant hstep events ⟨sound_start prepared,rfl⟩
    exact ⟨hrun.1,by rw [hrun.2]⟩

/-- A call stands where its outcomes put it: it goes on while there are only failures that are
each followed by another attempt; it returns the first good data and throws the first failure
that is not. It is fetched once for each attempt, within its budget, and its pauses keep to its
options. -/
structure Answered (c : ApiCall T) : Prop where
  open_iff : c.phase.isEnded = false ↔
    ∃ es : List ApiFailure, c.outs = es.map .error ∧ Passed c.request.again es
  returned_iff : ∀ a, c.phase = .ended (.ok a) ↔
    ∃ es : List ApiFailure, c.outs = es.map .error ++ [.ok a]
  thrown_iff : ∀ e, c.phase = .ended (.error e) ↔ ∃ es : List ApiFailure,
    c.outs = (es ++ [e]).map .error ∧ Passed c.request.again es ∧
      c.request.again (es.length+1) e = false
  fetched : c.telemetry.countP (·.isRequest) = match c.phase with
    | .trying k => k
    | _ => c.outs.length
  within : ∀ n, c.request.budget = some n → c.telemetry.countP (·.isRequest) ≤ n
  pauses : PausesWithin c.request c.telemetry

theorem Sound.within (h : Sound c) {n : ℕ} (hn : c.request.budget = some n) :
    c.telemetry.countP (·.isRequest) ≤ n := by
  have htrail := h.trail
  have hle := htrail.length_le (fun _ _ => lt_budget hn) (one_le_budget hn)
  rw [h.fetched]
  cases hphase : c.phase with
  | trying k =>
    -- the open attempt is one that the last failure was allowed to ask for
    rw [hphase] at htrail
    obtain ⟨es,-,rfl,hes⟩ := htrail.stands
    exact Passed.lt_budget hes hn
  | waiting k => exact hle
  | ended r => exact hle

theorem Sound.answered (h : Sound c) : Answered c where
  open_iff := h.trail.open_iff
  returned_iff _ := h.trail.returned_iff
  thrown_iff _ := h.trail.thrown_iff
  fetched := h.fetched
  within _ := h.within
  pauses := h.pauses

/-- Replies and pauses in turn. -/
def feed (jitter : Fin 101) : List (FetchReply T) → List (ApiEvent T)
  | [] => []
  | reply :: replies => .reply reply jitter :: .wake :: feed jitter replies

/-- Replies to all attempts of its budget bring a call to its end. -/
theorem feed_ends (jitter : Fin 101) (replies : List (FetchReply T)) (h : Sound c)
    (hk : c.phase = .trying k) {n : ℕ} (hn : c.request.budget = some n)
    (hlen : n ≤ c.outs.length+replies.length) :
    (Runs.run (step client) (feed jitter replies) c).phase.isEnded = true := by
  induction replies generalizing c k with
  | nil =>
    obtain ⟨es,houts,hes⟩ := h.trail.open_iff.mp (by rw [hk]; rfl)
    rw [houts,List.length_map,List.length_nil] at hlen
    exact absurd (Passed.lt_budget hes hn) (not_lt.mpr hlen)
  | cons reply replies ih =>
    have hsound : Sound (step client (.reply reply jitter) c) := step_sound h _
    have hreply : step client (.reply reply jitter) c = _ := step_reply hk reply jitter
    simp only [feed,Runs.run_cons]
    rcases Attempts.settle_cases c.request.again k (client.outcome c.request reply) with
      hends | ⟨hwaits,-⟩
    · have hended : (step client (.reply reply jitter) c).phase.isEnded = true := by
        rw [hreply]
        simp only [hends]
        rfl
      have hstays : ∀ (d : ApiCall T) ev, d.phase.isEnded = true →
          (step client ev d).phase.isEnded = true := by
        intro d ev hd
        rw [step_ended hd]
        exact hd
      exact Runs.invariant hstays _ (hstays _ .wake hended)
    · have hphase : (step client (.reply reply jitter) c).phase = .waiting k := by
        rw [hreply]
        exact hwaits
      have hwoken : step client .wake (step client (.reply reply jitter) c) = _ := step_wake hphase
      refine ih (step_sound hsound .wake) (k := k+1) (by rw [hwoken]) ?_ ?_
      · rw [step_request,step_request]
        exact hn
      · rw [hwoken,hreply]
        simp only [List.length_append,List.length_cons,List.length_nil] at hlen ⊢
        omega

/-- A call stands where the replies to its attempts put it, fetched within its budget; the
reply to an attempt is taken, a call that has paused makes its next attempt, and one whose attempts
are all replied to ends. Without error interceptors only replies of a passing trouble are followed
by another attempt. -/
theorem run_fetches {request : ApiRequestContext} {events : List (ApiEvent T)}
    (h : run client request events = .ok c) :
    client.prepare request = .ok c.request ∧ c.Answered ∧
      (∀ k, c.phase = .trying k → ∀ reply jitter,
        (step client (.reply reply jitter) c).outs = c.outs ++ [client.outcome c.request reply]) ∧
      (∀ k, c.phase = .waiting k → (step client .wake c).phase = .trying (k+1) ∧
        (step client .wake c).outs = c.outs) ∧
      (∀ k n jitter replies, c.phase = .trying k → c.request.budget = some n →
        n ≤ c.outs.length+replies.length →
        (Runs.run (step client) (feed jitter replies) c).phase.isEnded = true) ∧
      (client.errorInterceptors = [] → ∀ (reply : FetchReply T) k e,
        client.outcome c.request reply = .error e → c.request.again k e = true → Passing reply) := by
  obtain ⟨hsound,hprepare⟩ := run_sound h
  refine ⟨hprepare,hsound.answered,fun k hk reply jitter => ?_,fun k hk => ?_,
    fun k n jitter replies hk hn hlen => feed_ends jitter replies hsound hk hn hlen,
    fun hclient _ _ _ => passing_of_again hclient⟩
  · rw [step_reply hk]
  · rw [step_wake hk]
    exact ⟨rfl,rfl⟩

section Demo

def summaryRequest : ApiRequestContext where
  url := "/vault/summary"
  retry := some { attempts := some (.finite (5/2)) }

def summaryCall : ApiCall ℕ where
  request := summaryRequest
  outs := [.error (.error (normalizeThrown (.typeError "")))]
  phase := .trying 2
  telemetry := [.request 1,.retry 1 290 .networkError,.request 2]

theorem run_fetches_summary : summaryCall.Answered ∧
    (Runs.run (step {}) (feed 0 [.notOk 503,.ok 200 (.ok 7)]) summaryCall).phase.isEnded = true := by
  have hrun : run (T := ℕ) {} summaryRequest [.reply (.failed (.typeError "")) 40,.wake] =
      .ok summaryCall := by
    have hagain : shouldRetry summaryRequest 1 (normalizeThrown (.typeError "")) = true := by
      norm_num [shouldRetry,getRetryOptions,summaryRequest,HttpMethod.isSafe,normalizeThrown,
        JsNumber.above]
    have hout : ({} : ApiClient).outcome summaryRequest (.failed (.typeError "")) =
        (.error (.error (normalizeThrown (.typeError ""))) : Except ApiFailure ℕ) := rfl
    have hfailed : step {} (.reply (.failed (.typeError "")) 40) { request := summaryRequest } =
        ({ request := summaryRequest, outs := [.error (.error (normalizeThrown (.typeError "")))],
           phase := .waiting 1, telemetry := [.request 1,.retry 1 290 .networkError] } :
          ApiCall ℕ) := by
      rw [step_reply rfl,hout]
      simp only [Attempts.settle,ApiRequestContext.again,told,hagain,if_true]
      rfl
    have hstart : run (T := ℕ) {} summaryRequest [.reply (.failed (.typeError "")) 40,.wake] =
        .ok (step {} .wake (step {} (.reply (.failed (.typeError "")) 40)
          { request := summaryRequest })) := rfl
    rw [hstart,hfailed]
    rfl
  have hbudget : summaryRequest.budget = some 3 := by
    have hceil : ⌈(5/2 : ℚ)⌉₊ = 3 := (Nat.ceil_eq_iff (by norm_num)).mpr (by norm_num)
    simp [ApiRequestContext.budget,getRetryOptions,summaryRequest,HttpMethod.isSafe,
      JsNumber.budget,hceil]
  have h := run_fetches hrun
  exact ⟨h.2.1,h.2.2.2.2.1 2 3 0 _ rfl hbudget (by decide)⟩

end Demo

end ApiCall

end YieldVault.Frontend
