import YieldVault.Runs
import YieldVault.Backend.Idempotency

/-! The roles of API keys and the admin routes. A request passes the check of its key, then a
check of the permission that a table of rules finds for its path; the router, which knows no
letter case, picks the handler. -/
namespace YieldVault.Backend

inductive ApiKeyRole
  | viewer | operator | admin | superAdmin
  deriving DecidableEq

inductive Permission
  | ADMIN_READ | CONFIG_WRITE | ALLOWLIST_WRITE | WEBHOOKS_WRITE | WEBHOOKS_PRIVILEGED
  | API_KEYS_WRITE | API_KEYS_SUPER | EXPORTS_WRITE | JOBS_WRITE | IDEMPOTENCY_WRITE
  | IDEMPOTENCY_FLUSH | IMPERSONATE
  deriving DecidableEq

def Permission.text : Permission → String
  | ADMIN_READ => "admin.read"
  | CONFIG_WRITE => "admin.config.write"
  | ALLOWLIST_WRITE => "admin.allowlist.write"
  | WEBHOOKS_WRITE => "admin.webhooks.write"
  | WEBHOOKS_PRIVILEGED => "admin.webhooks.privileged"
  | API_KEYS_WRITE => "admin.api_keys.write"
  | API_KEYS_SUPER => "admin.api_keys.super"
  | EXPORTS_WRITE => "admin.exports.write"
  | JOBS_WRITE => "admin.jobs.write"
  | IDEMPOTENCY_WRITE => "admin.idempotency.write"
  | IDEMPOTENCY_FLUSH => "admin.idempotency.flush"
  | IMPERSONATE => "admin.impersonate"

def ALL_PERMISSIONS : List Permission :=
  [.ADMIN_READ,.CONFIG_WRITE,.ALLOWLIST_WRITE,.WEBHOOKS_WRITE,.WEBHOOKS_PRIVILEGED,
    .API_KEYS_WRITE,.API_KEYS_SUPER,.EXPORTS_WRITE,.JOBS_WRITE,.IDEMPOTENCY_WRITE,
    .IDEMPOTENCY_FLUSH,.IMPERSONATE]

def ROLE_PERMISSIONS : ApiKeyRole → List Permission
  | .viewer => [.ADMIN_READ]
  | .operator => [.ADMIN_READ,.CONFIG_WRITE,.ALLOWLIST_WRITE,.WEBHOOKS_WRITE,.EXPORTS_WRITE,
      .JOBS_WRITE,.IDEMPOTENCY_WRITE]
  | .admin => [.ADMIN_READ,.CONFIG_WRITE,.ALLOWLIST_WRITE,.WEBHOOKS_WRITE,.WEBHOOKS_PRIVILEGED,
      .API_KEYS_WRITE,.EXPORTS_WRITE,.JOBS_WRITE,.IDEMPOTENCY_WRITE]
  | .superAdmin => ALL_PERMISSIONS

def roleHasPermission (role : ApiKeyRole) (permission : Permission) : Bool :=
  decide (permission ∈ ROLE_PERMISSIONS role)

inductive HttpMethod
  | GET | HEAD | POST | PUT | PATCH | DELETE | OPTIONS
  | other (name : String)
  deriving DecidableEq

inductive PathPart
  | text (s : String)
  | param
  deriving DecidableEq

def matchPath (part : PathPart → String → Bool) : List PathPart → List String → Bool
  | [], [] => true
  | p :: pattern, s :: path => part p s && matchPath part pattern path
  | _, _ => false

def PathPart.test : PathPart → String → Bool
  | .text t, s => decide (t = s)
  | .param, s => decide (s ≠ "")

/-- A part of a route of the router, which ignores the case of ASCII letters. -/
def PathPart.serves : PathPart → String → Bool
  | .text t, s => decide (t.toList.map Char.toLower = s.toList.map Char.toLower)
  | .param, s => decide (s ≠ "")

section Rules

structure RouteRule where
  methods : List HttpMethod
  pattern : List PathPart
  permission : Permission

def ADMIN_ROUTE_RULES : List RouteRule :=
  [⟨[.GET],[.text "admin",.text "impersonate",.param],.IMPERSONATE⟩,
    ⟨[.DELETE],[.text "admin",.text "idempotency",.text "keys"],.IDEMPOTENCY_FLUSH⟩,
    ⟨[.POST],[.text "admin",.text "maintenance"],.CONFIG_WRITE⟩,
    ⟨[.POST],[.text "admin",.text "cache",.text "invalidate"],.CONFIG_WRITE⟩,
    ⟨[.POST],[.text "admin",.text "allowlist",.text "add"],.ALLOWLIST_WRITE⟩,
    ⟨[.DELETE],[.text "admin",.text "allowlist",.text "remove"],.ALLOWLIST_WRITE⟩,
    ⟨[.POST],[.text "admin",.text "apy",.text "backfill"],.JOBS_WRITE⟩,
    ⟨[.POST],[.text "admin",.text "events",.text "replay"],.JOBS_WRITE⟩,
    ⟨[.POST],[.text "admin",.text "api-keys",.text "register"],.API_KEYS_WRITE⟩,
    ⟨[.POST],[.text "admin",.text "api-keys",.text "rotate"],.API_KEYS_WRITE⟩,
    ⟨[.POST],[.text "admin",.text "api-keys",.text "revoke"],.API_KEYS_WRITE⟩,
    ⟨[.POST],[.text "admin",.text "webhooks"],.WEBHOOKS_WRITE⟩,
    ⟨[.PATCH],[.text "admin",.text "webhooks",.param],.WEBHOOKS_WRITE⟩,
    ⟨[.DELETE],[.text "admin",.text "webhooks",.param],.WEBHOOKS_WRITE⟩,
    ⟨[.POST],[.text "admin",.text "webhooks",.param,.text "restore"],.WEBHOOKS_WRITE⟩,
    ⟨[.POST],[.text "admin",.text "exports",.text "bulk"],.EXPORTS_WRITE⟩,
    ⟨[.POST],[.text "admin",.text "exports",.text "bulk",.text "jobs",.param,.text "cancel"],
      .EXPORTS_WRITE⟩,
    ⟨[.POST],[.text "admin",.text "exports",.text "jobs",.param,.text "verify"],.EXPORTS_WRITE⟩,
    ⟨[.DELETE],[.text "admin",.text "idempotency",.text "keys",.param],.IDEMPOTENCY_WRITE⟩]

/-- A request, its path from the first slash on as the texts between its slashes. -/
structure AdminRequest where
  method : HttpMethod
  path : List String
  authorization : String := ""

/-- Slashes in a row become one, and one at the end is cut off. -/
def getNormalizedPath (path : List String) : List String := path.filter fun s => decide (s ≠ "")

def resolveAdminRoutePermission (method : HttpMethod) (path : List String) : Permission :=
  match ADMIN_ROUTE_RULES.find? fun rule =>
      decide (method ∈ rule.methods) && matchPath PathPart.test rule.pattern (getNormalizedPath path) with
  | some rule => rule.permission
  | none => if method = .GET ∨ method = .HEAD then .ADMIN_READ else .API_KEYS_WRITE

end Rules

section Router

structure AdminRoute where
  method : HttpMethod
  template : List PathPart

/-- The handlers behind the check, in the order in which they are registered. -/
def adminRoutes : List AdminRoute :=
  [⟨.POST,[.text "admin",.text "apy",.text "backfill"]⟩,
    ⟨.GET,[.text "admin",.text "maintenance"]⟩,
    ⟨.POST,[.text "admin",.text "maintenance"]⟩,
    ⟨.GET,[.text "admin",.text "cache",.text "stats"]⟩,
    ⟨.DELETE,[.text "admin",.text "cache"]⟩,
    ⟨.POST,[.text "admin",.text "cache",.text "invalidate"]⟩,
    ⟨.POST,[.text "admin",.text "events",.text "replay"]⟩,
    ⟨.POST,[.text "admin",.text "withdrawal-limits",.text "override"]⟩,
    ⟨.GET,[.text "admin",.text "withdrawal-limits",.text "audit"]⟩,
    ⟨.GET,[.text "admin",.text "emails",.text "queue"]⟩,
    ⟨.POST,[.text "admin",.text "emails",.text "replay",.param]⟩,
    ⟨.POST,[.text "admin",.text "allowlist",.text "add"]⟩,
    ⟨.DELETE,[.text "admin",.text "allowlist",.text "remove"]⟩,
    ⟨.GET,[.text "admin",.text "allowlist"]⟩,
    ⟨.POST,[.text "admin",.text "impersonate",.text "sessions"]⟩,
    ⟨.GET,[.text "admin",.text "impersonate",.text "sessions"]⟩,
    ⟨.DELETE,[.text "admin",.text "impersonate",.text "sessions",.param]⟩,
    ⟨.GET,[.text "admin",.text "impersonate",.param]⟩,
    ⟨.GET,[.text "admin",.text "receipts"]⟩,
    ⟨.GET,[.text "admin",.text "receipts",.param]⟩,
    ⟨.GET,[.text "admin",.text "receipts",.param,.text "verify"]⟩,
    ⟨.POST,[.text "admin",.text "api-keys",.text "register"]⟩,
    ⟨.POST,[.text "admin",.text "api-keys",.text "rotate"]⟩,
    ⟨.POST,[.text "admin",.text "api-keys",.text "revoke"]⟩,
    ⟨.GET,[.text "admin",.text "api-keys",.text "audit-events"]⟩,
    ⟨.POST,[.text "admin",.text "webhooks"]⟩,
    ⟨.POST,[.text "admin",.text "webhooks",.param,.text "verify"]⟩,
    ⟨.PATCH,[.text "admin",.text "webhooks",.param]⟩,
    ⟨.GET,[.text "admin",.text "webhooks"]⟩,
    ⟨.DELETE,[.text "admin",.text "webhooks",.param]⟩,
    ⟨.POST,[.text "admin",.text "webhooks",.param,.text "restore"]⟩,
    ⟨.GET,[.text "admin",.text "webhooks",.text "dead-letter"]⟩,
    ⟨.POST,[.text "admin",.text "webhooks",.text "dead-letter",.param,.text "retry"]⟩,
    ⟨.GET,[.text "admin",.text "webhooks",.text "deliveries"]⟩,
    ⟨.GET,[.text "admin",.text "audit",.text "logs"]⟩,
    ⟨.GET,[.text "admin",.text "audit-logs"]⟩,
    ⟨.GET,[.text "admin",.text "exports",.text "jobs"]⟩,
    ⟨.POST,[.text "admin",.text "exports",.text "jobs",.param,.text "verify"]⟩,
    ⟨.POST,[.text "admin",.text "exports",.text "bulk"]⟩,
    ⟨.GET,[.text "admin",.text "exports",.text "bulk",.text "jobs"]⟩,
    ⟨.GET,[.text "admin",.text "exports",.text "bulk",.text "jobs",.param]⟩,
    ⟨.POST,[.text "admin",.text "exports",.text "bulk",.text "jobs",.param,.text "cancel"]⟩,
    ⟨.GET,[.text "admin",.text "exports",.text "bulk",.text "artifacts",.param]⟩,
    ⟨.GET,[.text "admin",.text "prisma",.text "config"]⟩,
    ⟨.GET,[.text "admin",.text "jobs",.text "monitor"]⟩,
    ⟨.GET,[.text "admin",.text "jobs",.text "metrics"]⟩,
    ⟨.GET,[.text "admin",.text "jobs",.text "dashboard"]⟩,
    ⟨.GET,[.text "admin",.text "idempotency",.text "keys"]⟩,
    ⟨.DELETE,[.text "admin",.text "idempotency",.text "keys",.param]⟩,
    ⟨.DELETE,[.text "admin",.text "idempotency",.text "keys"]⟩,
    ⟨.GET,[.text "admin",.text "idempotency",.text "metrics"]⟩]

/-- A handler for GET serves HEAD too. -/
def AdminRoute.handles (route : AdminRoute) (method : HttpMethod) : Bool :=
  decide (route.method = method ∨ route.method = .GET ∧ method = .HEAD)

/-- The path fits, perhaps with one slash more at its end. -/
def AdminRoute.fits (route : AdminRoute) (path : List String) : Bool :=
  matchPath PathPart.serves route.template path ||
    decide (path.getLast? = some "") && matchPath PathPart.serves route.template path.dropLast

def adminDispatch (req : AdminRequest) : Option AdminRoute :=
  adminRoutes.find? fun route => route.handles req.method && route.fits req.path

def AdminRoute.permission (route : AdminRoute) : Permission :=
  resolveAdminRoutePermission route.method (route.template.map fun part =>
    match part with
    | .text t => t
    | .param => ":param")

end Router

section Keys

structure ApiKeyMetadata where
  createdAt : ℕ
  rotatedAt : Option ℕ := none

/-- The keys by their hashes, and for each the role that it was registered with. -/
structure ApiKeys where
  keys : String → Option ApiKeyMetadata := fun _ => none
  roles : String → Option ApiKeyRole := fun _ => none

inductive KeyEvent
  | register (key : String) (role : ApiKeyRole) (now : ℕ)
  | rotate (oldHash newKey : String) (now : ℕ)
  | revoke (hash : String)

variable (hashApiKey : String → String)

namespace ApiKeys

/-- The role is not stored. -/
def registerApiKey (key : String) (role : ApiKeyRole) (now : ℕ) (s : ApiKeys) : ApiKeys where
  keys := Function.update s.keys (hashApiKey key) (some ⟨now,none⟩)
  roles := Function.update s.roles (hashApiKey key) (some role)

def revokeApiKey (hash : String) (s : ApiKeys) : ApiKeys where
  keys := Function.update s.keys hash none
  roles := Function.update s.roles hash none

def rotateApiKey (oldHash newKey : String) (now : ℕ) (s : ApiKeys) : ApiKeys :=
  match s.keys oldHash with
  | none => s
  | some metadata =>
    { keys := Function.update (Function.update s.keys oldHash none) (hashApiKey newKey)
        (some ⟨metadata.createdAt,some now⟩)
      roles := Function.update (Function.update s.roles oldHash none) (hashApiKey newKey)
        (s.roles oldHash) }

def serve : KeyEvent → ApiKeys → ApiKeys
  | .register key role now, s => s.registerApiKey hashApiKey key role now
  | .rotate oldHash newKey now, s => s.rotateApiKey hashApiKey oldHash newKey now
  | .revoke hash, s => s.revokeApiKey hash

def runFrom (events : List KeyEvent) : ApiKeys := Runs.run (serve hashApiKey) events {}

end ApiKeys

end Keys

section Middleware

def isSpace (c : Char) : Bool :=
  decide (c.toNat ∈ [9,10,11,12,13,32,160,5760,8232,8233,8239,8287,12288,65279] ∨
    8192 ≤ c.toNat ∧ c.toNat ≤ 8202)

/-- The key in the header, which has no line break: `ApiKey`, white space, and the rest, for
which the white space leaves one character at least. -/
def matchApiKey (header : String) : Option String :=
  let chars := header.toList
  if "ApiKey".toList.isPrefixOf chars then
    let rest := chars.drop 6
    match rest.takeWhile isSpace,rest.dropWhile isSpace with
    | [],_ => none
    | _,c :: key => some (String.ofList (c :: key))
    | [_],[] => none
    | spaces,[] => some (String.ofList (spaces.getLast?.toList))
  else none

inductive AdminRefusal
  | missingKey
  | invalidKey
  | forbidden (required : Permission)

def AdminRefusal.message : AdminRefusal → String
  | .missingKey => "Missing or invalid API key"
  | .invalidKey => "Invalid API key"
  | .forbidden required => "Insufficient permissions. Required: " ++ required.text

variable (hashApiKey : String → String)

def validateApiKey (s : ApiKeys) (req : AdminRequest) : Except AdminRefusal Unit :=
  match matchApiKey req.authorization with
  | none => .error .missingKey
  | some key => if (s.keys (hashApiKey key)).isSome then .ok () else .error .invalidKey

/-- No code in front of the check sets `authApiKeyRole`. -/
def resolveApiKeyRole (authApiKeyRole : Option ApiKeyRole) : ApiKeyRole :=
  authApiKeyRole.getD .admin

def adminRbacMiddleware (req : AdminRequest) : Except AdminRefusal Unit :=
  let required := resolveAdminRoutePermission req.method req.path
  if roleHasPermission (resolveApiKeyRole none) required then .ok () else .error (.forbidden required)

def checkAdmin (s : ApiKeys) (req : AdminRequest) : Except AdminRefusal Unit := do
  validateApiKey hashApiKey s req
  adminRbacMiddleware req

def ApiKeys.presentedRole (s : ApiKeys) (req : AdminRequest) : Option ApiKeyRole :=
  (matchApiKey req.authorization).bind fun key => s.roles (hashApiKey key)

/-- A request that is passed on has a key whose role holds the permission of the handler. -/
def Enforced (s : ApiKeys) (req : AdminRequest) (route : AdminRoute) : Prop :=
  checkAdmin hashApiKey s req = .ok () → ∃ role, s.presentedRole hashApiKey req = some role ∧
    roleHasPermission role route.permission = true

/-- The request is spelled as one of the two rules that not every key passes. -/
def AdminRequest.AsRuled (req : AdminRequest) : Prop :=
  req.method = .GET ∧ (∃ wallet, getNormalizedPath req.path = ["admin","impersonate",wallet]) ∨
    req.method = .DELETE ∧ getNormalizedPath req.path = ["admin","idempotency","keys"]

end Middleware

section Paths

theorem normalized_ne_empty {path : List String} {s : String}
    (h : s ∈ getNormalizedPath path) : s ≠ "" :=
  of_decide_eq_true (List.mem_filter.mp h).2

theorem matchPath_nil {part : PathPart → String → Bool} {path : List String} :
    matchPath part [] path = true ↔ path = [] := by
  cases path <;> simp [matchPath]

theorem matchPath_cons {part : PathPart → String → Bool} {p : PathPart} {pattern : List PathPart}
    {path : List String} : matchPath part (p :: pattern) path = true ↔
      ∃ s rest, path = s :: rest ∧ part p s = true ∧ matchPath part pattern rest = true := by
  cases path with
  | nil => simp [matchPath]
  | cons s rest => simp [matchPath]

theorem filter_of_serves {pattern : List PathPart} {path : List String}
    (hpattern : .text "" ∉ pattern) (h : matchPath PathPart.serves pattern path = true) :
    getNormalizedPath path = path := by
  induction pattern generalizing path with
  | nil =>
    rw [matchPath_nil.mp h]
    rfl
  | cons p pattern ih =>
    obtain ⟨s,rest,rfl,hpart,hrest⟩ := matchPath_cons.mp h
    have hne : s ≠ "" := by
      rintro rfl
      cases p with
      | param => simp [PathPart.serves] at hpart
      | text t =>
        have hempty : t.toList = [] := by simpa [PathPart.serves] using hpart
        refine hpattern ?_
        rw [String.toList_eq_nil_iff.mp hempty]
        exact List.mem_cons_self
    have htail := ih (fun hmem => hpattern (List.mem_cons_of_mem _ hmem)) hrest
    exact (List.filter_cons_of_pos (by simpa using hne)).trans (congrArg (s :: ·) htail)

theorem template_full {route : AdminRoute} (h : route ∈ adminRoutes) : .text "" ∉ route.template := by
  revert route
  decide

/-- What the router takes a path for is what the rules look at, but for letter case. -/
theorem serves_normalized {route : AdminRoute} (hroute : route ∈ adminRoutes) {path : List String}
    (h : route.fits path = true) :
    matchPath PathPart.serves route.template (getNormalizedPath path) = true := by
  have hfull := template_full hroute
  rcases Bool.or_eq_true_iff.mp h with hfits | hslash
  · rwa [filter_of_serves hfull hfits]
  · obtain ⟨hlast,hfits⟩ := Bool.and_eq_true_iff.mp hslash
    have hends : path = path.dropLast ++ [""] :=
      (List.dropLast_append_getLast? "" (of_decide_eq_true hlast)).symm
    have hnormal : getNormalizedPath path = getNormalizedPath path.dropLast := by
      conv_lhs => rw [hends]
      simp [getNormalizedPath]
    rwa [hnormal,filter_of_serves hfull hfits]

end Paths

section Rules

/-- The rules after the first two assign what every admin has. -/
theorem rules_within {rule : RouteRule} (h : rule ∈ ADMIN_ROUTE_RULES.drop 2) :
    roleHasPermission .admin rule.permission = true := by
  have hall : ∀ rule ∈ ADMIN_ROUTE_RULES.drop 2,
      roleHasPermission .admin rule.permission = true := by decide
  exact hall rule h

theorem resolve_eq (method : HttpMethod) (path : List String) :
    (∃ rule ∈ ADMIN_ROUTE_RULES, method ∈ rule.methods ∧
        matchPath PathPart.test rule.pattern (getNormalizedPath path) = true ∧
        resolveAdminRoutePermission method path = rule.permission) ∨
      resolveAdminRoutePermission method path =
        if method = .GET ∨ method = .HEAD then .ADMIN_READ else .API_KEYS_WRITE := by
  unfold resolveAdminRoutePermission
  split
  · next rule hfound =>
    have hfits := List.find?_some hfound
    simp only [Bool.and_eq_true,decide_eq_true_eq] at hfits
    exact Or.inl ⟨rule,List.mem_of_find?_eq_some hfound,hfits.1,hfits.2,rfl⟩
  · exact Or.inr rfl

theorem resolve_asRuled (req : AdminRequest) :
    roleHasPermission .admin (resolveAdminRoutePermission req.method req.path) = false ↔
      req.AsRuled := by
  constructor
  · intro hlacks
    rcases resolve_eq req.method req.path with ⟨rule,hrule,hmethod,hmatch,hresolve⟩ | hdefault
    · rw [hresolve] at hlacks
      rcases List.mem_cons.mp hrule with rfl | hrule
      · obtain ⟨_,_,hpath,h1,hmatch⟩ := matchPath_cons.mp hmatch
        obtain ⟨_,_,rfl,h2,hmatch⟩ := matchPath_cons.mp hmatch
        obtain ⟨wallet,_,rfl,-,hmatch⟩ := matchPath_cons.mp hmatch
        obtain rfl := matchPath_nil.mp hmatch
        obtain rfl := of_decide_eq_true h1
        obtain rfl := of_decide_eq_true h2
        exact Or.inl ⟨List.mem_singleton.mp hmethod,wallet,hpath⟩
      · rcases List.mem_cons.mp hrule with rfl | hrule
        · obtain ⟨_,_,hpath,h1,hmatch⟩ := matchPath_cons.mp hmatch
          obtain ⟨_,_,rfl,h2,hmatch⟩ := matchPath_cons.mp hmatch
          obtain ⟨_,_,rfl,h3,hmatch⟩ := matchPath_cons.mp hmatch
          obtain rfl := matchPath_nil.mp hmatch
          obtain rfl := of_decide_eq_true h1
          obtain rfl := of_decide_eq_true h2
          obtain rfl := of_decide_eq_true h3
          exact Or.inr ⟨List.mem_singleton.mp hmethod,hpath⟩
        · rw [rules_within hrule] at hlacks
          cases hlacks
    · rw [hdefault] at hlacks
      split_ifs at hlacks <;> cases hlacks
  · rintro (⟨hmethod,wallet,hpath⟩ | ⟨hmethod,hpath⟩)
    · have hmem : wallet ∈ getNormalizedPath req.path := by simp [hpath]
      have hwallet : wallet ≠ "" := normalized_ne_empty hmem
      have hresolve : resolveAdminRoutePermission req.method req.path = .IMPERSONATE := by
        unfold resolveAdminRoutePermission
        rw [hmethod,hpath]
        simp [ADMIN_ROUTE_RULES,matchPath,PathPart.test,hwallet]
      rw [hresolve]
      rfl
    · have hresolve : resolveAdminRoutePermission req.method req.path = .IDEMPOTENCY_FLUSH := by
        unfold resolveAdminRoutePermission
        rw [hmethod,hpath]
        decide
      rw [hresolve]
      rfl

theorem matchPath_length {part : PathPart → String → Bool} {pattern : List PathPart}
    {path : List String} (h : matchPath part pattern path = true) :
    pattern.length = path.length := by
  induction pattern generalizing path with
  | nil => rw [matchPath_nil.mp h]; rfl
  | cons p pattern ih =>
    obtain ⟨s,rest,rfl,-,hrest⟩ := matchPath_cons.mp h
    simp [ih hrest]

theorem matchPath_take {part : PathPart → String → Bool} {pattern : List PathPart}
    {path : List String} (h : matchPath part pattern path = true) (n : ℕ) :
    matchPath part (pattern.take n) (path.take n) = true := by
  induction n generalizing pattern path with
  | zero => exact matchPath_nil.mpr rfl
  | succ n ih =>
    cases pattern with
    | nil => rw [matchPath_nil.mp h]; rfl
    | cons p pattern =>
      obtain ⟨s,rest,rfl,hpart,hrest⟩ := matchPath_cons.mp h
      exact matchPath_cons.mpr ⟨s,rest.take n,rfl,hpart,ih hrest⟩

theorem adminDispatch_asRuled {req : AdminRequest} {route : AdminRoute}
    (h : adminDispatch req = some route) (hruled : req.AsRuled) :
    roleHasPermission .admin route.permission = false := by
  have hroute : route ∈ adminRoutes := List.mem_of_find?_eq_some h
  have hserves := List.find?_some h
  obtain ⟨hhandles,hfits⟩ := Bool.and_eq_true_iff.mp hserves
  have hpath := serves_normalized hroute hfits
  rcases hruled with ⟨hmethod,wallet,hnormal⟩ | ⟨hmethod,hnormal⟩
  · have hall : ∀ route ∈ adminRoutes, route.handles .GET = true → route.template.length = 3 →
        matchPath PathPart.serves (route.template.take 2) ["admin","impersonate"] = true →
        roleHasPermission .admin route.permission = false := by decide
    rw [hnormal] at hpath
    exact hall route hroute (hmethod ▸ hhandles) (matchPath_length hpath) (matchPath_take hpath 2)
  · have hall : ∀ route ∈ adminRoutes, route.handles .DELETE = true →
        matchPath PathPart.serves route.template ["admin","idempotency","keys"] = true →
        roleHasPermission .admin route.permission = false := by decide
    rw [hnormal] at hpath
    exact hall route hroute (hmethod ▸ hhandles) hpath

end Rules

section Runs

variable {hashApiKey : String → String}

def ApiKeys.Paired (s : ApiKeys) : Prop :=
  ∀ hash, (s.keys hash).isSome = (s.roles hash).isSome

theorem ApiKeys.Paired.update {s : ApiKeys} (h : s.Paired) (hash : String)
    {metadata : Option ApiKeyMetadata} {role : Option ApiKeyRole}
    (hsame : metadata.isSome = role.isSome) :
    ApiKeys.Paired ⟨Function.update s.keys hash metadata,Function.update s.roles hash role⟩ := by
  intro other
  by_cases hother : other = hash
  · simp [hother,hsame]
  · simp [hother,h other]

theorem ApiKeys.Paired.serve {s : ApiKeys} (h : s.Paired) (event : KeyEvent) :
    (s.serve hashApiKey event).Paired := by
  cases event with
  | register key role now => exact h.update (hashApiKey key) rfl
  | rotate oldHash newKey now =>
    cases hold : s.keys oldHash with
    | none =>
      rw [ApiKeys.serve,rotateApiKey,hold]
      exact h
    | some metadata =>
      have hrole : (s.roles oldHash).isSome = true := by
        rw [← h,hold]
        rfl
      rw [ApiKeys.serve,rotateApiKey,hold]
      exact (h.update oldHash rfl).update (hashApiKey newKey) hrole.symm
  | revoke hash => exact h.update hash rfl

theorem ApiKeys.run_paired (events : List KeyEvent) : (runFrom hashApiKey events).Paired := by
  have hstep : ∀ s event, ApiKeys.Paired s → (s.serve hashApiKey event).Paired :=
    fun _ event h => h.serve event
  exact Runs.invariant hstep events fun _ => rfl

theorem validateApiKey_ok (events : List KeyEvent) (req : AdminRequest) :
    validateApiKey hashApiKey (ApiKeys.runFrom hashApiKey events) req = .ok () ↔
      ∃ role, (ApiKeys.runFrom hashApiKey events).presentedRole hashApiKey req = some role := by
  unfold validateApiKey ApiKeys.presentedRole
  cases matchApiKey req.authorization with
  | none => simp
  | some key =>
    simp only [Option.bind_some,ApiKeys.run_paired events (hashApiKey key)]
    cases (ApiKeys.runFrom hashApiKey events).roles (hashApiKey key) with
    | none => simp
    | some role => simp

/-- A request is passed on for every registered key, unless its path is one of the two that
an admin is refused. -/
theorem checkAdmin_ok (events : List KeyEvent) (req : AdminRequest) :
    checkAdmin hashApiKey (ApiKeys.runFrom hashApiKey events) req = .ok () ↔
      (∃ role, (ApiKeys.runFrom hashApiKey events).presentedRole hashApiKey req = some role) ∧
        ¬ req.AsRuled := by
  rw [← validateApiKey_ok,← resolve_asRuled,Bool.not_eq_false]
  unfold checkAdmin
  cases validateApiKey hashApiKey (ApiKeys.runFrom hashApiKey events) req with
  | error refusal => exact ⟨by rintro ⟨⟩,by rintro ⟨⟨⟩,-⟩⟩
  | ok _ =>
    change adminRbacMiddleware req = .ok () ↔ _
    rw [adminRbacMiddleware,resolveApiKeyRole,Option.getD_none]
    split_ifs with hhas
    · simp [hhas]
    · simp [hhas]

/-- A request keeps within the role of its key just where that role has the handler's
permission, or where no admin has it and the path is spelled so that its rule is found. -/
theorem enforced_iff (hashApiKey : String → String) (events : List KeyEvent) (req : AdminRequest)
    (route : AdminRoute) (hroute : adminDispatch req = some route) :
    Enforced hashApiKey (ApiKeys.runFrom hashApiKey events) req route ↔
      ∀ role, (ApiKeys.runFrom hashApiKey events).presentedRole hashApiKey req = some role →
        roleHasPermission role route.permission = true ∨
          roleHasPermission .admin route.permission = false ∧ req.AsRuled := by
  unfold Enforced
  rw [checkAdmin_ok]
  constructor
  · intro h role hrole
    by_cases hruled : req.AsRuled
    · exact Or.inr ⟨adminDispatch_asRuled hroute hruled,hruled⟩
    · obtain ⟨role',hrole',hhas⟩ := h ⟨⟨role,hrole⟩,hruled⟩
      obtain rfl := Option.some.inj (hrole.symm.trans hrole')
      exact Or.inl hhas
  · rintro h ⟨⟨role,hrole⟩,hruled⟩
    refine ⟨role,hrole,?_⟩
    rcases h role hrole with hhas | ⟨-,hasRuled⟩
    · exact hhas
    · exact absurd hasRuled hruled

def viewerRequest : AdminRequest :=
  { method := .POST, path := ["admin","maintenance"], authorization := "ApiKey viewer-key" }

def viewerRegistered : List KeyEvent := [.register "viewer-key" .viewer 0]

theorem viewerRegistered_iff :
    Enforced (fun key => key) (ApiKeys.runFrom (fun key => key) viewerRegistered) viewerRequest
        ⟨.POST,[.text "admin",.text "maintenance"]⟩ ↔
      ∀ role, (ApiKeys.runFrom (fun key => key) viewerRegistered).presentedRole (fun key => key)
          viewerRequest = some role →
        roleHasPermission role (AdminRoute.permission ⟨.POST,[.text "admin",.text "maintenance"]⟩) =
            true ∨
          roleHasPermission .admin
              (AdminRoute.permission ⟨.POST,[.text "admin",.text "maintenance"]⟩) = false ∧
            viewerRequest.AsRuled :=
  enforced_iff (fun key => key) viewerRegistered viewerRequest _ rfl

/-- A viewer is let through to the maintenance mode. -/
theorem viewer_not_enforced : ¬ ∀ (hashApiKey : String → String) (events : List KeyEvent)
    (req : AdminRequest) (route : AdminRoute), adminDispatch req = some route →
    Enforced hashApiKey (ApiKeys.runFrom hashApiKey events) req route := by
  intro h
  have henforced := h (fun key => key) viewerRegistered viewerRequest
    ⟨.POST,[.text "admin",.text "maintenance"]⟩ rfl
  obtain ⟨role,hrole,hhas⟩ := henforced rfl
  obtain rfl := Option.some.inj hrole
  revert hhas
  decide

end Runs

end YieldVault.Backend
