import YieldVault.Runs

/-! The cache of GET responses, the writes behind them and the invalidations that follow the
writes. A handler that awaits is passed by other requests, writes and invalidations. -/
namespace YieldVault.Backend

/-- The UTF-16 code units of a text, by which texts are sorted. -/
def utf16Units (text : String) : List ℕ :=
  text.toList.flatMap fun c =>
    if c.toNat < 0x10000 then [c.toNat]
    else [0xD800+(c.toNat-0x10000)/0x400,0xDC00+(c.toNat-0x10000)%0x400]

def sortTexts (texts : List String) : List String :=
  texts.insertionSort fun a b => utf16Units a ≤ utf16Units b

/-- A value of the parsed query string; brackets in the names nest it. -/
inductive QueryValue
  | text (value : String)
  | list (values : List QueryValue)
  | object (fields : List (String × QueryValue))

namespace QueryValue

mutual

/-- `String` of the value, where it has one. -/
def toText : QueryValue → String
  | .text value => value
  | .list values => ",".intercalate (toTexts values)
  | .object _ => "[object Object]"

def toTexts : List QueryValue → List String
  | [] => []
  | value :: values => value.toText :: toTexts values

end

mutual

/-- An object with a field `toString` is made no text of, and no array that contains it. -/
def throws : QueryValue → Bool
  | .text _ => false
  | .list values => someThrows values
  | .object fields => fields.any fun field => field.1 = "toString"

def someThrows : List QueryValue → Bool
  | [] => false
  | value :: values => value.throws || someThrows values

end

def values : QueryValue → List String
  | .list values => sortTexts (toTexts values)
  | value => [value.toText]

end QueryValue

/-- `path` is what the router sees, behind the `baseUrl` where it is mounted. -/
structure CacheRequest where
  method : String
  baseUrl : String
  path : String
  query : List (String × QueryValue) := []
  authorization : Option String := none

def CacheRequest.fullPath (req : CacheRequest) : String := req.baseUrl ++ req.path

def CacheRequest.Under (req : CacheRequest) (route : String) : Prop :=
  route.toList <+: req.fullPath.toList

instance (req : CacheRequest) (route : String) : Decidable (req.Under route) :=
  inferInstanceAs (Decidable (_ <+: _))

/-- `none` is a `TypeError`. -/
def buildCacheKey (req : CacheRequest) : Option String :=
  if req.query.any fun x => x.2.throws then none
  else match sortTexts (req.query.map (·.1)) with
    | [] => some (req.method ++ ":" ++ req.path)
    | keys => some (req.method ++ ":" ++ req.path ++ ":" ++ "&".intercalate (keys.map fun k =>
        k ++ "=" ++ ",".intercalate (((req.query.lookup k).map (·.values)).getD [])))

example : buildCacheKey ⟨"GET","/api/v1","/transactions",
    [("b",.text "3"),("a",.list [.text "2",.text "1"])],none⟩ =
      some "GET:/transactions:a=1,2&b=3" := by decide

/-- A response is kept with the number of writes made before its data was read. -/
structure CacheEntry (D : Type*) where
  data : D
  statusCode : ℕ
  expiresAt : ℕ
  lastUsed : ℕ
  seen : ℕ

structure CacheOptions where
  ttl : ℕ
  sharedCache : Bool := false

/-- A request that has missed the cache, while its handler works on it. -/
structure PendingGet where
  cacheKey : String
  ttl : ℕ
  seen : Option ℕ := none

inductive CacheWrite
  | vaultOperation | referredDeposit | apySnapshot

/-- The routes that a write invalidates when it has succeeded. -/
def CacheWrite.routes : CacheWrite → List String
  | .vaultOperation => ["/api/v1/vault","/api/v1/transactions","/api/v1/portfolio"]
  | .referredDeposit => ["/api/v1/referrals"]
  | .apySnapshot => ["/api/v1/vault/apy"]

/-- The test of the pattern of a route, whose characters all stand for themselves. -/
def PatternMatches (route key : String) : Prop := ("GET:" ++ route).toList <:+: key.toList

instance (route key : String) : Decidable (PatternMatches route key) :=
  inferInstanceAs (Decidable (_ <:+: _))

/-- `invalidated route` says how many of the writes, in their order, there are up to the last
one that has invalidated the route. -/
structure ResponseCache (D : Type*) where
  entries : List (String × CacheEntry D) := []
  pending : ℕ → Option PendingGet := fun _ => none
  nextRequest : ℕ := 0
  writes : ℕ := 0
  invalidated : String → ℕ := fun _ => 0

inductive CacheEvent (D : Type*)
  | get (req : CacheRequest) (options : CacheOptions) (now : ℕ)
  | computed (id : ℕ)
  | responded (id status : ℕ) (data : D) (now : ℕ)
  | written
  | invalidated (write : ℕ) (kind : CacheWrite)
  | invalidateCache (pattern : String → Bool)

namespace ResponseCache

variable {D : Type*} (maxEntries : ℕ)

/-- The middleware leaves other requests alone. -/
def Caches (options : CacheOptions) (req : CacheRequest) : Prop :=
  req.method = "GET" ∧ (options.sharedCache = true ∨ req.authorization.getD "" = "") ∧
    ¬ "/admin/audit".toList <+: req.path.toList

instance (options : CacheOptions) (req : CacheRequest) : Decidable (Caches options req) :=
  inferInstanceAs (Decidable (_ ∧ _))

def touch (key : String) (now : ℕ) (entries : List (String × CacheEntry D)) :
    List (String × CacheEntry D) :=
  entries.map fun x => if x.1 = key then (x.1,{ x.2 with lastUsed := now }) else x

/-- The first of the entries that have been used last the longest ago. -/
def leastRecent (entries : List (String × CacheEntry D)) : Option (String × CacheEntry D) :=
  entries.foldl (fun oldest x => match oldest with
    | none => some x
    | some y => if x.2.lastUsed < y.2.lastUsed then some x else some y) none

def evictLru (entries : List (String × CacheEntry D)) : List (String × CacheEntry D) :=
  match leastRecent entries with
  | none => entries
  | some oldest => entries.filter fun x => x.1 ≠ oldest.1

/-- `LruCacheStore.set`; an entry that is replaced keeps its place. -/
def set (key : String) (entry : CacheEntry D) (entries : List (String × CacheEntry D)) :
    List (String × CacheEntry D) :=
  if key ∈ entries.map (·.1) then
    entries.map fun x => if x.1 = key then (key,entry) else x
  else
    (if maxEntries ≤ entries.length then evictLru entries else entries) ++ [(key,entry)]

def hit (req : CacheRequest) (options : CacheOptions) (now : ℕ) (s : ResponseCache D) :
    Option (CacheEntry D) :=
  if Caches options req then
    (buildCacheKey req).bind fun key =>
      (s.entries.lookup key).filter fun entry => now < entry.expiresAt
  else none

def step : CacheEvent D → ResponseCache D → ResponseCache D
  | .get req options now, s =>
    if Caches options req then
      match buildCacheKey req with
      | none => s
      | some cacheKey =>
        let t := { s with entries := touch cacheKey now s.entries }
        match s.hit req options now with
        | some _ => t
        | none => { t with
            pending := Function.update t.pending t.nextRequest (some
              { cacheKey := cacheKey
                ttl := options.ttl })
            nextRequest := t.nextRequest+1 }
    else s
  -- the handler reads what it answers with; of several reads the first one counts
  | .computed id, s => { s with
      pending := Function.update s.pending id ((s.pending id).map fun r =>
        { r with seen := some (r.seen.getD s.writes) }) }
  | .responded id status data now, s =>
    match s.pending id with
    | none => s
    | some r =>
      let t := { s with pending := Function.update s.pending id none }
      if 200 ≤ status ∧ status < 300 then
        { t with
          entries := set maxEntries r.cacheKey
            { data := data
              statusCode := status
              expiresAt := now+r.ttl
              lastUsed := now
              seen := r.seen.getD s.writes } t.entries }
      else t
  | .written, s => { s with writes := s.writes+1 }
  | .invalidated write kind, s =>
    if write < s.writes then
      { s with
        entries := s.entries.filter fun x => ¬ ∃ route ∈ kind.routes, PatternMatches route x.1
        invalidated := fun route =>
          if route ∈ kind.routes then max (s.invalidated route) (write+1)
          else s.invalidated route }
    else s
  | .invalidateCache pattern, s => { s with entries := s.entries.filter fun x => ¬ pattern x.1 }

/-- No hit returns a response whose data was read before a write that has invalidated a route
the request is under. -/
def FreshHit (s : ResponseCache D) : CacheEvent D → Prop
  | .get req options now => ∀ entry ∈ s.hit req options now, ∀ route, req.Under route →
    s.invalidated route ≤ entry.seen
  | _ => True

/-- The pattern of every invalidated route that a hit is under matches the key; and a response
is stored only where its data was read behind every write that has invalidated its key. -/
def KeyedFresh (s : ResponseCache D) : CacheEvent D → Prop
  | .get req options now => (s.hit req options now).isSome = true → ∀ route, req.Under route →
    0 < s.invalidated route → ∀ key ∈ buildCacheKey req, PatternMatches route key
  | .responded id status _ _ => 200 ≤ status ∧ status < 300 → ∀ r ∈ s.pending id, ∀ route,
    PatternMatches route r.cacheKey → s.invalidated route ≤ r.seen.getD s.writes
  | _ => True

/-- Every entry has been read behind the writes that have invalidated its key. -/
def Fresh (s : ResponseCache D) : Prop :=
  ∀ x ∈ s.entries, ∀ route, PatternMatches route x.1 → s.invalidated route ≤ x.2.seen

variable {maxEntries} {s : ResponseCache D}

theorem mem_touch {key : String} {now : ℕ} {entries : List (String × CacheEntry D)}
    {x : String × CacheEntry D} (hx : x ∈ touch key now entries) :
    ∃ y ∈ entries, y.1 = x.1 ∧ y.2.seen = x.2.seen := by
  obtain ⟨y,hy,rfl⟩ := List.mem_map.mp hx
  refine ⟨y,hy,?_⟩
  split <;> exact ⟨rfl,rfl⟩

theorem mem_set {key : String} {entry : CacheEntry D} {entries : List (String × CacheEntry D)}
    {x : String × CacheEntry D} (hx : x ∈ set maxEntries key entry entries) :
    x = (key,entry) ∨ x ∈ entries := by
  unfold set at hx
  split at hx
  · obtain ⟨y,hy,rfl⟩ := List.mem_map.mp hx
    split
    · exact Or.inl rfl
    · exact Or.inr hy
  · rcases List.mem_append.mp hx with hx | hx
    · refine Or.inr ?_
      split at hx
      · unfold evictLru at hx
        split at hx
        · exact hx
        · exact List.mem_of_mem_filter hx
      · exact hx
    · exact Or.inl (List.mem_singleton.mp hx)

theorem Fresh.touch (h : s.Fresh) (key : String) (now : ℕ) :
    ({ s with entries := touch key now s.entries } : ResponseCache D).Fresh := by
  intro x hx route hroute
  obtain ⟨y,hy,hkey,hseen⟩ := mem_touch hx
  rw [← hkey] at hroute
  exact hseen ▸ h y hy route hroute

/-- An invalidation removes every entry whose freshness it calls into question. -/
theorem Fresh.invalidated (h : s.Fresh) (write : ℕ) (kind : CacheWrite) :
    (step maxEntries (.invalidated write kind) s).Fresh := by
  simp only [step]
  split
  case isFalse => exact h
  case isTrue =>
    intro x hx route hroute
    obtain ⟨hx,hkept⟩ := List.mem_filter.mp hx
    have hnone : ¬ ∃ route ∈ kind.routes, PatternMatches route x.1 := of_decide_eq_true hkept
    have hnotin : route ∉ kind.routes := fun hin => hnone ⟨route,hin,hroute⟩
    simpa [hnotin] using h x hx route hroute

theorem Fresh.step (h : s.Fresh) (e : CacheEvent D) (hk : KeyedFresh s e) :
    (step maxEntries e s).Fresh := by
  cases e with
  | get req options now =>
    simp only [ResponseCache.step]
    split
    · split
      · exact h
      · split
        · exact h.touch _ now
        · exact h.touch _ now
    · exact h
  | computed id => exact h
  | responded id status data now =>
    simp only [ResponseCache.step]
    split
    case h_1 => exact h
    case h_2 r hr =>
      split
      case isFalse => exact h
      case isTrue hstatus =>
        intro x hx route hroute
        rcases mem_set hx with rfl | hx
        · exact hk hstatus r hr route hroute
        · exact h x hx route hroute
  | written => exact h
  | invalidated write kind => exact h.invalidated write kind
  | invalidateCache pattern => exact fun x hx => h x (List.mem_of_mem_filter hx)

theorem mem_of_lookup {key : String} {entry : CacheEntry D}
    {entries : List (String × CacheEntry D)} (h : entries.lookup key = some entry) :
    (key,entry) ∈ entries := by
  induction entries with
  | nil => cases h
  | cons x xs ih =>
    rw [List.lookup_cons] at h
    split at h
    case h_1 heq =>
      obtain rfl := Option.some.inj h
      rw [eq_of_beq heq]
      exact List.mem_cons_self
    case h_2 => exact List.mem_cons_of_mem _ (ih h)

theorem hit_mem {req : CacheRequest} {options : CacheOptions} {now : ℕ} {entry : CacheEntry D}
    (h : s.hit req options now = some entry) :
    ∃ key ∈ buildCacheKey req, (key,entry) ∈ s.entries := by
  unfold hit at h
  split at h
  · obtain ⟨key,hkey,hentry⟩ := Option.bind_eq_some_iff.mp h
    exact ⟨key,hkey,mem_of_lookup (Option.eq_some_of_filter_eq_some hentry)⟩
  · cases h

theorem Fresh.freshHit (h : s.Fresh) (e : CacheEvent D) (hk : KeyedFresh s e) :
    FreshHit s e := by
  cases e with
  | get req options now =>
    intro entry hentry route hunder
    rcases Nat.eq_zero_or_pos (s.invalidated route) with hnone | hsome
    · exact hnone ▸ Nat.zero_le _
    · obtain ⟨key,hkey,hmem⟩ := hit_mem hentry
      exact h _ hmem route (hk (Option.isSome_of_mem hentry) route hunder hsome key hkey)
  | _ => trivial

/-- In every run in which the patterns match the keys of the hits and nothing is stored behind
an invalidation that it has not seen, every hit is fresh. -/
theorem hits_fresh (maxEntries : ℕ) (acts : List (CacheEvent D))
    (h : Runs.Along (step maxEntries) KeyedFresh {} acts) :
    Runs.Along (step maxEntries) FreshHit {} acts :=
  h.of_invariant (fun _ e (hs : Fresh _) hk => hs.step e hk) (fun _ e hs hk => hs.freshHit e hk)
    (by simp [Fresh])

theorem appRoute_matches {req : CacheRequest} {route : String} (hmethod : req.method = "GET")
    (hbase : req.baseUrl = "") (hunder : req.Under route) :
    ∀ key ∈ buildCacheKey req, PatternMatches route key := by
  have hpath : route.toList <+: req.path.toList := by
    simpa [CacheRequest.Under,CacheRequest.fullPath,hbase] using hunder
  intro key hkey
  refine List.IsPrefix.isInfix ?_
  rw [String.toList_append]
  unfold buildCacheKey at hkey
  split at hkey
  · cases hkey
  · split at hkey
    · obtain rfl := Option.some.inj hkey
      simp only [hmethod,String.toList_append]
      exact (List.prefix_append_right_inj _).mpr hpath
    · obtain rfl := Option.some.inj hkey
      simp only [hmethod,String.toList_append,List.append_assoc]
      exact (List.prefix_append_right_inj "GET:".toList).mpr (hpath.trans (List.prefix_append _ _))

section Referrals

def referralStats (wallet : String) : CacheRequest where
  method := "GET"
  baseUrl := "/api/v1/referrals"
  path := "/" ++ wallet

theorem referralStats_key (wallet : String) :
    buildCacheKey (referralStats wallet) = some ("GET:/" ++ wallet) := by
  simp [buildCacheKey,referralStats,sortTexts,← String.append_assoc]

theorem referralStats_unmatched {wallet : String} (h : '/' ∉ wallet.toList) :
    ¬ PatternMatches "/api/v1/referrals" ("GET:/" ++ wallet) := by
  intro hmatch
  have hkey : ("GET:/" ++ wallet).toList = "GET:/".toList ++ wallet.toList := String.toList_append
  have hle := hmatch.sublist.count_le '/'
  rw [hkey,List.count_append,List.count_eq_zero_of_not_mem h] at hle
  revert hle
  decide

/-- So no referral takes the stats of any wallet out of the cache. -/
theorem referralStats_kept {wallet : String} (h : '/' ∉ wallet.toList) (write : ℕ)
    {key : String} (hkey : key ∈ buildCacheKey (referralStats wallet)) {entry : CacheEntry D}
    (hentry : (key,entry) ∈ s.entries) :
    (key,entry) ∈ (step maxEntries (.invalidated write .referredDeposit) s).entries := by
  obtain rfl := Option.some.inj ((referralStats_key wallet).symm.trans hkey)
  simp only [step]
  split
  · refine List.mem_filter.mpr ⟨hentry,decide_eq_true ?_⟩
    rintro ⟨route,hroute,hmatch⟩
    obtain rfl := List.mem_singleton.mp hroute
    exact referralStats_unmatched h hmatch
  · exact hentry

end Referrals

section Vault

def vaultSummary : CacheRequest where
  method := "GET"
  baseUrl := ""
  path := "/api/v1/vault/summary"

def summaryRun : List (CacheEvent ℕ) :=
  [.get vaultSummary ⟨30000,false⟩ 0,.computed 0,.responded 0 200 100 0,.written,
    .invalidated 0 .vaultOperation,.get vaultSummary ⟨30000,false⟩ 10,.computed 1,
    .responded 1 200 150 10,.get vaultSummary ⟨30000,false⟩ 20]

theorem summaryRun_fresh : Runs.Along (step 500) KeyedFresh {} summaryRun ∧
    Runs.Along (step 500) FreshHit {} summaryRun := by
  have hget (s : ResponseCache ℕ) (now : ℕ) : KeyedFresh s (.get vaultSummary ⟨30000,false⟩ now) :=
    fun _ _ hunder _ => appRoute_matches rfl rfl hunder
  have hkeyed : Runs.Along (step 500) KeyedFresh {} summaryRun := by
    refine ⟨hget _ _,trivial,?_,trivial,trivial,hget _ _,trivial,?_,hget _ _,trivial⟩
    · exact fun _ _ _ _ _ => Nat.zero_le _
    · intro _ r hr route _
      obtain rfl := Option.some.inj hr
      change (if route ∈ CacheWrite.vaultOperation.routes then 1 else 0) ≤ 1
      split
      · exact le_rfl
      · exact zero_le_one
  exact ⟨hkeyed,hits_fresh 500 summaryRun hkeyed⟩

/-- The stats of a wallet are read, a wallet that it has referred deposits, and the stats are
read again. -/
theorem referralStats_stale :
    ¬ ∀ (maxEntries : ℕ) (acts : List (CacheEvent ℕ)),
      Runs.Along (step maxEntries) FreshHit {} acts := by
  intro h
  have hrun := h 500 [.get (referralStats "GALICE") ⟨30000,false⟩ 0,.computed 0,
    .responded 0 200 0 0,.written,.invalidated 0 .referredDeposit,
    .get (referralStats "GALICE") ⟨30000,false⟩ 10]
  have hhit := hrun.2.2.2.2.2.1 _ rfl "/api/v1/referrals" (by decide)
  revert hhit
  decide

end Vault

end ResponseCache

end YieldVault.Backend
