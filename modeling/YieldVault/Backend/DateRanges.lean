import YieldVault.Calendar

/-! The UTC date ranges of the list requests. A bound is a timestamp or a calendar date, and a
date stands for its first or its last millisecond. -/
namespace YieldVault.Backend
open Calendar

section Parsing

structure ParsedUtcDateRange where
  start : Option String
  end_ : Option String
  rawStart : Option String
  rawEnd : Option String
  normalizedStart : Option String
  normalizedEnd : Option String

/-- The query parameters `from` and `to`. -/
structure UtcDateRangeInput where
  fromValue : Option String := none
  toValue : Option String := none

structure DateRangeParseError where
  message : String
  status : ℕ := 400

inductive Boundary
  | fromBound | toBound

def Boundary.name : Boundary → String
  | .fromBound => "from"
  | .toBound => "to"

def DEFAULT_MAX_RANGE_DAYS : ℕ := 366

def isDateOnly (value : String) : Bool := (dateFields value.toList).isSome

/-- The time zone at the end of a text, on the reversed text. -/
def endsWithZone : List Char → Bool
  | 'Z' :: _ | 'z' :: _ => true
  | m₂ :: m₁ :: ':' :: h₂ :: h₁ :: sign :: _ =>
    [m₂,m₁,h₂,h₁].all isDigit && (sign = '+' || sign = '-')
  | m₂ :: m₁ :: h₂ :: h₁ :: sign :: _ => [m₂,m₁,h₂,h₁].all isDigit && (sign = '+' || sign = '-')
  | _ => false

def hasTimezone (value : String) : Bool := endsWithZone value.toList.reverse

def startOfUtcDay (date : String) : String := date ++ "T00:00:00.000Z"

def endOfUtcDay (date : String) : String := date ++ "T23:59:59.999Z"

def utcDayBoundary : Boundary → String → String
  | .fromBound => startOfUtcDay
  | .toBound => endOfUtcDay

-- `Date.parse`, whose `NaN` is none.
variable (parse : String → Option ℤ)

def normalizeBoundary (value : Option String) (boundary : Boundary) :
    Except DateRangeParseError (Option String) :=
  let name := boundary.name
  match value with
  | none | some "" => .ok none
  | some value =>
    if isDateOnly value then .ok (utcDayBoundary boundary value)
    else if !hasTimezone value then
      .error { message :=
        s!"Invalid {name} value. Use an ISO 8601 timestamp with timezone or YYYY-MM-DD." }
    else match parse value with
      | none => .error { message := s!"Invalid {name} value. Unable to parse date." }
      | some timestamp => .ok (toISOString timestamp)

/-- A comparison with `NaN` fails, so that neither check refuses a bound that does not parse. -/
def checkRange (maxRangeDays : ℕ) (normalizedStart normalizedEnd : String) :
    Except DateRangeParseError Unit :=
  match parse normalizedStart,parse normalizedEnd with
  | some startTime,some endTime =>
    if endTime < startTime then
      .error { message := "Invalid date range. `to` must be greater than or equal to `from`." }
    else if ((maxRangeDays : ℤ)-1)*24*60*60*1000+999 < endTime-startTime then
      .error { message := s!"Invalid date range. Maximum allowed range is {maxRangeDays} days." }
    else .ok ()
  | _,_ => .ok ()

def parseUtcDateRange (input : UtcDateRangeInput) (maxRangeDays : Option ℕ) :
    Except DateRangeParseError ParsedUtcDateRange := do
  let normalizedStart ← normalizeBoundary parse input.fromValue .fromBound
  let normalizedEnd ← normalizeBoundary parse input.toValue .toBound
  let maxRangeDays := maxRangeDays.getD DEFAULT_MAX_RANGE_DAYS
  if let (some first,some last) := (normalizedStart,normalizedEnd) then
    checkRange parse maxRangeDays first last
  return ⟨normalizedStart,normalizedEnd,input.fromValue,input.toValue,normalizedStart,normalizedEnd⟩

end Parsing

section Reading

variable {parse : String → Option ℤ}

/-- What the language says of `Date.parse`: it reads the texts of its own format, and its times
are time values. -/
structure DateParse (parse : String → Option ℤ) : Prop where
  reads : ∀ text ms, parseISO text = some ms → parse text = some ms
  timeValue : ∀ text ms, parse text = some ms → |ms| ≤ 8640000000000000

theorem DateParse.parse_toISOString (hparse : DateParse parse) {ms : ℤ}
    (h : |ms| ≤ 8640000000000000) : parse (toISOString ms) = some ms :=
  hparse.reads _ _ (parseISO_toISOString h)

def given (value : Option String) : Option String := value.filter (· ≠ "")

/-- The first or the last millisecond of a date, since 1970. -/
def dayTime (date : ℕ × ℕ × ℕ) : Boundary → ℤ
  | .fromBound => 86400000*(dayNumber date-719528)
  | .toBound => 86400000*(dayNumber date-719528)+86399999

def denotes (boundary : Boundary) (value : String) : Option ℤ :=
  match dateFields value.toList with
  | some date => if IsDate date then some (dayTime date boundary) else none
  | none => isoInstant value

def readTime (parse : String → Option ℤ) (boundary : Boundary) (value : String) : Option ℤ :=
  if isDateOnly value then parse (utcDayBoundary boundary value) else parse value

def Readable (parse : String → Option ℤ) (value : String) : Prop :=
  isDateOnly value = true ∨ hasTimezone value = true ∧ parse value ≠ none

theorem toISOString_dayTime {value : String} {date : ℕ × ℕ × ℕ}
    (hfields : dateFields value.toList = some date) (hdate : IsDate date) (boundary : Boundary) :
    toISOString (dayTime date boundary) = utcDayBoundary boundary value := by
  obtain ⟨htext,hyear⟩ := dateText_of_dateFields hfields
  have hiso := isoDate_eq (hdate.dayNumber_lt hyear)
  rw [dateOf_dayNumber hdate,← htext] at hiso
  have hwrite : ∀ (ms : ℤ) (time : String), 0 ≤ ms → ms < 86400000 → isoTime ms = time.toList →
      toISOString (86400000*(dayNumber date-719528)+ms) = value ++ time := by
    intro ms time h₁ h₂ htime
    have hday : (86400000*((dayNumber date : ℤ)-719528)+ms)/86400000 = dayNumber date-719528 := by
      omega
    apply String.toList_inj.mp
    rw [toList_toISOString,hday,hiso,isoTime_add_days,htime,String.toList_append]
  cases boundary with
  | fromBound =>
    have hstart := hwrite 0 "T00:00:00.000Z" le_rfl (by norm_num) (by decide)
    rwa [add_zero] at hstart
  | toBound => exact hwrite 86399999 _ (by norm_num) (by norm_num) (by decide)

theorem abs_dayTime_le {date : ℕ × ℕ × ℕ} (hdate : IsDate date) (hyear : date.1 ≤ 9999)
    (boundary : Boundary) : |dayTime date boundary| ≤ 8640000000000000 := by
  have hlt := hdate.dayNumber_lt hyear
  rw [abs_le]
  cases boundary
  · simp only [dayTime]
    omega
  · simp only [dayTime]
    omega

section Zones

theorem hasTimezone_of_suffix {value : String} {rest : List Char} {minutes : ℤ}
    (hsuffix : rest <:+ value.toList) (h : utcOffset rest = some minutes) :
    hasTimezone value = true := by
  obtain ⟨before,hvalue⟩ := hsuffix
  rw [hasTimezone,← hvalue,List.reverse_append]
  have hutc := h
  unfold utcOffset at h
  split at h
  · rfl
  · next sign h₁ h₂ m₁ m₂ =>
    obtain ⟨hsign,hhours,hminutes⟩ := utcOffset_digits hutc
    have hmark : m₂ ≠ 'Z' ∧ m₂ ≠ 'z' :=
      ⟨ne_of_isDigit hminutes.2 (by decide),ne_of_isDigit hminutes.2 (by decide)⟩
    simp [endsWithZone,hmark,hhours,hminutes,hsign]
  · cases h

theorem hasTimezone_of_hours {value : String} {rest : List Char} {minutes : ℤ}
    (hsuffix : rest <:+ value.toList) (h : hourOffset rest = some minutes) :
    hasTimezone value = false := by
  obtain ⟨before,hvalue⟩ := hsuffix
  rw [hasTimezone,← hvalue,List.reverse_append]
  unfold hourOffset at h
  split at h
  · next sign h₁ h₂ =>
    obtain ⟨hsign,⟨-,hhour⟩,-⟩ := utcOffset_digits h
    have hupper : h₂ ≠ 'Z' := ne_of_isDigit hhour (by decide)
    have hlower : h₂ ≠ 'z' := ne_of_isDigit hhour (by decide)
    have hmark : sign ≠ ':' ∧ isDigit sign = false := by
      rcases hsign with rfl | rfl
      · decide
      · decide
    -- the sign stands where a digit or a colon would have to
    rcases before.reverse with _ | ⟨a,_ | ⟨b,text⟩⟩
    · simp [endsWithZone,hupper,hlower]
    · simp [endsWithZone,hupper,hlower]
    · simp [endsWithZone,hmark]
  · cases h

end Zones

/-- An instant is found to have a time zone where it is one of the language. -/
theorem hasTimezone_iff {value : String} {ms : ℤ} (h : isoInstant value = some ms) :
    hasTimezone value = true ↔ parseISO value = some ms := by
  constructor
  · intro hzone
    rcases parseISO_of_isoInstant h with hread | ⟨rest,minutes,hsuffix,hhours⟩
    · exact hread
    · rw [hasTimezone_of_hours hsuffix hhours] at hzone
      cases hzone
  · intro hread
    obtain ⟨rest,minutes,hsuffix,hutc,-⟩ := parseInstant_offset hread
    exact hasTimezone_of_suffix hsuffix hutc

def Zoned (value : String) : Prop := isDateOnly value = true ∨ hasTimezone value = true

theorem denotes_readTime (hparse : DateParse parse) {boundary : Boundary} {value : String} {ms : ℤ}
    (h : denotes boundary value = some ms) (hzone : Zoned value) :
    Readable parse value ∧ readTime parse boundary value = some ms := by
  unfold denotes at h
  split at h
  · next date hfields =>
    have hdateOnly : isDateOnly value = true := by rw [isDateOnly,hfields]; rfl
    split at h
    · next hdate =>
      obtain rfl := Option.some.inj h
      have hyear := (dateText_of_dateFields hfields).2
      refine ⟨.inl hdateOnly,?_⟩
      rw [readTime,if_pos hdateOnly,← toISOString_dayTime hfields hdate boundary]
      exact hparse.parse_toISOString (abs_dayTime_le hdate hyear _)
    · cases h
  · next hfields =>
    have hdateOnly : ¬isDateOnly value = true := by simp [isDateOnly,hfields]
    have htimezone := hzone.resolve_left hdateOnly
    have hread := hparse.reads value ms ((hasTimezone_iff h).mp htimezone)
    exact ⟨.inr ⟨htimezone,by rw [hread]; exact Option.some_ne_none _⟩,
      by rwa [readTime,if_neg hdateOnly]⟩

theorem normalizeBoundary_cases (hparse : DateParse parse) (value : Option String)
    (boundary : Boundary) :
    (given value = none ∧ normalizeBoundary parse value boundary = .ok none) ∨
    (∃ v e, given value = some v ∧ ¬Readable parse v ∧
      normalizeBoundary parse value boundary = .error e) ∨
    ∃ v text, given value = some v ∧ Readable parse v ∧
      normalizeBoundary parse value boundary = .ok (some text) ∧
      parse text = readTime parse boundary v := by
  rcases value with _ | v
  · exact .inl ⟨rfl,rfl⟩
  by_cases hempty : v = ""
  · subst hempty
    exact .inl ⟨rfl,rfl⟩
  have hgiven : given (some v) = some v := by simp [given,hempty]
  right
  by_cases hdate : isDateOnly v = true
  · refine .inr ⟨v,utcDayBoundary boundary v,hgiven,.inl hdate,?_,by rw [readTime,if_pos hdate]⟩
    simp [normalizeBoundary,hdate]
  by_cases hread : hasTimezone v = true ∧ parse v ≠ none
  · obtain ⟨hzone,hsome⟩ := hread
    obtain ⟨ms,hms⟩ := Option.ne_none_iff_exists'.mp hsome
    refine .inr ⟨v,toISOString ms,hgiven,.inr ⟨hzone,hsome⟩,?_,?_⟩
    · simp [normalizeBoundary,hdate,hzone,hms]
    · rw [readTime,if_neg hdate,hms]
      exact hparse.parse_toISOString (hparse.timeValue v ms hms)
  · have herror : ∃ e, normalizeBoundary parse (some v) boundary = .error e := by
      by_cases hzone : hasTimezone v = true
      · have hnone : parse v = none := not_not.mp fun hne => hread ⟨hzone,hne⟩
        simp [normalizeBoundary,hdate,hzone,hnone]
      · simp [normalizeBoundary,hdate,hzone]
    obtain ⟨e,he⟩ := herror
    exact .inl ⟨v,e,hgiven,fun h => h.elim hdate hread,he⟩

theorem checkRange_ok_iff {maxRangeDays : ℕ} {first last : String} :
    checkRange parse maxRangeDays first last = .ok () ↔
      ∀ s e, parse first = some s → parse last = some e →
        s ≤ e ∧ e-s ≤ ((maxRangeDays : ℤ)-1)*86400000+999 := by
  have hmax : ((maxRangeDays : ℤ)-1)*24*60*60*1000+999 = ((maxRangeDays : ℤ)-1)*86400000+999 := by
    ring
  unfold checkRange
  rw [hmax]
  cases parse first with
  | none => simp
  | some s => cases parse last with
    | none => simp
    | some e =>
      dsimp only
      constructor
      · intro h s' e' hs he
        obtain rfl := Option.some.inj hs
        obtain rfl := Option.some.inj he
        split at h
        · cases h
        split at h
        · cases h
        · omega
      · intro h
        obtain ⟨hle,hlen⟩ := h s e rfl rfl
        rw [if_neg (not_lt.mpr hle),if_neg (not_lt.mpr hlen)]

/-- No bound is refused, and two bounds are in order and not too far apart. -/
def Accepted (parse : String → Option ℤ) (maxRangeDays : ℕ) (input : UtcDateRangeInput) : Prop :=
  (∀ v, given input.fromValue = some v → Readable parse v) ∧
  (∀ v, given input.toValue = some v → Readable parse v) ∧
  ∀ v w s e, given input.fromValue = some v → given input.toValue = some w →
    readTime parse .fromBound v = some s → readTime parse .toBound w = some e →
      s ≤ e ∧ e-s ≤ ((maxRangeDays : ℤ)-1)*86400000+999

/-- The normalized bound is a text for the time that was read, or absent with the bound. -/
def Written (parse : String → Option ℤ) (boundary : Boundary) (value normalized : Option String) :
    Prop :=
  match given value with
  | none => normalized = none
  | some v => ∃ text, normalized = some text ∧ parse text = readTime parse boundary v

theorem normalizeBoundary_ok (hparse : DateParse parse) {value : Option String}
    {boundary : Boundary} {normalized : Option String}
    (h : normalizeBoundary parse value boundary = .ok normalized) :
    (∀ v, given value = some v → Readable parse v) ∧ Written parse boundary value normalized := by
  unfold Written
  rcases normalizeBoundary_cases hparse value boundary with
    ⟨hgiven,hok⟩ | ⟨v,e,hgiven,hread,herror⟩ | ⟨v,text,hgiven,hread,hok,htext⟩
  · rw [hgiven]
    exact ⟨fun v hv => absurd hv (by simp),(Except.ok.inj (hok.symm.trans h)).symm⟩
  · rw [herror] at h
    cases h
  · rw [hgiven]
    exact ⟨fun v' hv' => Option.some.inj hv' ▸ hread,text,
      (Except.ok.inj (hok.symm.trans h)).symm,htext⟩

theorem normalizeBoundary_of_readable (hparse : DateParse parse) {value : Option String}
    (h : ∀ v, given value = some v → Readable parse v) (boundary : Boundary) :
    ∃ normalized, normalizeBoundary parse value boundary = .ok normalized := by
  rcases normalizeBoundary_cases hparse value boundary with
    ⟨-,hok⟩ | ⟨v,e,hgiven,hread,-⟩ | ⟨v,text,-,-,hok,-⟩
  · exact ⟨_,hok⟩
  · exact absurd (h v hgiven) hread
  · exact ⟨_,hok⟩

theorem parseUtcDateRange_eq_ok_iff {input : UtcDateRangeInput} {maxRangeDays : ℕ}
    {range : ParsedUtcDateRange} :
    parseUtcDateRange parse input (some maxRangeDays) = .ok range ↔
      ∃ first last, normalizeBoundary parse input.fromValue .fromBound = .ok first ∧
        normalizeBoundary parse input.toValue .toBound = .ok last ∧
        (∀ f ∈ first, ∀ l ∈ last, checkRange parse maxRangeDays f l = .ok ()) ∧
        range = ⟨first,last,input.fromValue,input.toValue,first,last⟩ := by
  unfold parseUtcDateRange
  cases hfirst : normalizeBoundary parse input.fromValue .fromBound with
  | error e => simp [bind,Except.bind]
  | ok first =>
    cases hlast : normalizeBoundary parse input.toValue .toBound with
    | error e => simp [bind,Except.bind]
    | ok last =>
      cases first with
      | none => simp [bind,Except.bind,pure,Except.pure,eq_comm]
      | some f => cases last with
        | none => simp [bind,Except.bind,pure,Except.pure,eq_comm]
        | some l =>
          cases hcheck : checkRange parse maxRangeDays f l with
          | error e => simp [bind,Except.bind,hcheck]
          | ok u => simp [bind,Except.bind,pure,Except.pure,hcheck,eq_comm]

theorem accepted_of_ok (hparse : DateParse parse) {input : UtcDateRangeInput} {maxRangeDays : ℕ}
    {range : ParsedUtcDateRange}
    (h : parseUtcDateRange parse input (some maxRangeDays) = .ok range) :
    Accepted parse maxRangeDays input ∧ Written parse .fromBound input.fromValue range.start ∧
      Written parse .toBound input.toValue range.end_ := by
  obtain ⟨first,last,hfirst,hlast,hcheck,rfl⟩ := parseUtcDateRange_eq_ok_iff.mp h
  obtain ⟨hreads,hwritten⟩ := normalizeBoundary_ok hparse hfirst
  obtain ⟨hreads',hwritten'⟩ := normalizeBoundary_ok hparse hlast
  refine ⟨⟨hreads,hreads',?_⟩,hwritten,hwritten'⟩
  intro v w s e hv hw hs he
  unfold Written at hwritten hwritten'
  rw [hv] at hwritten
  rw [hw] at hwritten'
  obtain ⟨f,rfl,hf⟩ := hwritten
  obtain ⟨l,rfl,hl⟩ := hwritten'
  exact checkRange_ok_iff.mp (hcheck f rfl l rfl) s e (hf.trans hs) (hl.trans he)

theorem ok_of_accepted (hparse : DateParse parse) {input : UtcDateRangeInput} {maxRangeDays : ℕ}
    (h : Accepted parse maxRangeDays input) :
    ∃ range, parseUtcDateRange parse input (some maxRangeDays) = .ok range := by
  obtain ⟨hreads,hreads',hrange⟩ := h
  obtain ⟨first,hfirst⟩ := normalizeBoundary_of_readable hparse hreads .fromBound
  obtain ⟨last,hlast⟩ := normalizeBoundary_of_readable hparse hreads' .toBound
  refine ⟨_,parseUtcDateRange_eq_ok_iff.mpr ⟨first,last,hfirst,hlast,?_,rfl⟩⟩
  intro f hf l hl
  obtain rfl := Option.mem_def.mp hf
  obtain rfl := Option.mem_def.mp hl
  refine checkRange_ok_iff.mpr fun s e hs he => ?_
  have hwritten := (normalizeBoundary_ok hparse hfirst).2
  have hwritten' := (normalizeBoundary_ok hparse hlast).2
  unfold Written at hwritten hwritten'
  cases hv : given input.fromValue with
  | none => rw [hv] at hwritten; cases hwritten
  | some v => cases hw : given input.toValue with
    | none => rw [hw] at hwritten'; cases hwritten'
    | some w =>
      rw [hv] at hwritten
      rw [hw] at hwritten'
      obtain ⟨f',hf',hread⟩ := hwritten
      obtain ⟨l',hl',hread'⟩ := hwritten'
      obtain rfl := Option.some.inj hf'
      obtain rfl := Option.some.inj hl'
      exact hrange v w s e hv hw (hread.symm.trans hs) (hread'.symm.trans he)

end Reading

section Exactness

variable {parse : String → Option ℤ} {maxRangeDays : ℕ} {input : UtcDateRangeInput}

/-- The bound, where it is given, denotes a time. -/
def Meaningful (boundary : Boundary) (value : Option String) : Prop :=
  ∀ v, given value = some v → denotes boundary v ≠ none

/-- Every bound denotes a time, in order, with no more than the days allowed between them. -/
def Acceptable (maxRangeDays : ℕ) (input : UtcDateRangeInput) : Prop :=
  Meaningful .fromBound input.fromValue ∧ Meaningful .toBound input.toValue ∧
  ∀ v w s e, given input.fromValue = some v → given input.toValue = some w →
    denotes .fromBound v = some s → denotes .toBound w = some e →
      s ≤ e ∧ e/86400000-s/86400000+1 ≤ (maxRangeDays : ℤ)

/-- The bound of the result is the first or last instant of what was asked for. -/
def BoundExact (parse : String → Option ℤ) (boundary : Boundary) (value normalized : Option String) :
    Prop :=
  match given value with
  | none => normalized = none
  | some v => ∃ text ms, normalized = some text ∧ parse text = some ms ∧ denotes boundary v = some ms

/-- The requests with acceptable ranges are those accepted, and their bounds are exact. -/
def ExactlyParsed (parse : String → Option ℤ) (maxRangeDays : ℕ) (input : UtcDateRangeInput) :
    Prop :=
  ((∃ range, parseUtcDateRange parse input (some maxRangeDays) = .ok range) ↔
    Acceptable maxRangeDays input) ∧
  ∀ range, parseUtcDateRange parse input (some maxRangeDays) = .ok range →
    BoundExact parse .fromBound input.fromValue range.start ∧
    BoundExact parse .toBound input.toValue range.end_

/-- The length in milliseconds counts the days right, except next to the limit. -/
theorem length_check_iff (hmax : 1 ≤ maxRangeDays) (s e : ℤ) :
    ((s ≤ e ∧ e-s ≤ ((maxRangeDays : ℤ)-1)*86400000+999) ↔
        (s ≤ e ∧ e/86400000-s/86400000+1 ≤ (maxRangeDays : ℤ))) ↔
      (e/86400000-s/86400000 = (maxRangeDays : ℤ)-1 → e % 86400000 ≤ s % 86400000+999) ∧
        (e/86400000-s/86400000 = maxRangeDays → s % 86400000 < e % 86400000+86399001) := by
  omega

/-- A bound that is given is refused. -/
def Refused (parse : String → Option ℤ) (value : Option String) : Prop :=
  ∃ v, given value = some v ∧ ¬Readable parse v

/-- A bound denotes nothing, or the two are out of order or too many days apart. -/
def ToRefuse (maxRangeDays : ℕ) (input : UtcDateRangeInput) : Prop :=
  (∃ v, given input.fromValue = some v ∧ denotes .fromBound v = none) ∨
  (∃ w, given input.toValue = some w ∧ denotes .toBound w = none) ∨
  ∃ v w s e, given input.fromValue = some v ∧ given input.toValue = some w ∧
    denotes .fromBound v = some s ∧ denotes .toBound w = some e ∧
    (e < s ∨ (maxRangeDays : ℤ) < e/86400000-s/86400000+1)

/-- A bound is refused, in a range that is to be refused; or both denote times, with a time zone
that is found, whose distance is not next to the limit, where it is counted wrong; or one that
denotes nothing is read as a time that is refused. -/
def ReadRight (parse : String → Option ℤ) (maxRangeDays : ℕ) (input : UtcDateRangeInput) : Prop :=
  ((Refused parse input.fromValue ∨ Refused parse input.toValue) ∧ ToRefuse maxRangeDays input) ∨
  ((∀ v, given input.fromValue = some v → denotes .fromBound v ≠ none ∧ Zoned v) ∧
    (∀ w, given input.toValue = some w → denotes .toBound w ≠ none ∧ Zoned w) ∧
    ∀ v w s e, given input.fromValue = some v → given input.toValue = some w →
      denotes .fromBound v = some s → denotes .toBound w = some e →
      (e/86400000-s/86400000 = (maxRangeDays : ℤ)-1 → e % 86400000 ≤ s % 86400000+999) ∧
        (e/86400000-s/86400000 = maxRangeDays → s % 86400000 < e % 86400000+86399001)) ∨
  ∃ v w s e, given input.fromValue = some v ∧ given input.toValue = some w ∧
    (denotes .fromBound v = none ∨ denotes .toBound w = none) ∧
    readTime parse .fromBound v = some s ∧ readTime parse .toBound w = some e ∧
    (e < s ∨ ((maxRangeDays : ℤ)-1)*86400000+999 < e-s)

theorem toRefuse_iff : ToRefuse maxRangeDays input ↔ ¬Acceptable maxRangeDays input := by
  constructor
  · rintro (⟨v,hv,hnone⟩ | ⟨w,hw,hnone⟩ | ⟨v,w,s,e,hv,hw,hs,he,hrange⟩) h
    · exact h.1 v hv hnone
    · exact h.2.1 w hw hnone
    · have hin := h.2.2 v w s e hv hw hs he
      omega
  · intro h
    by_contra hnot
    simp only [ToRefuse,not_or,not_exists,not_and] at hnot
    obtain ⟨hfrom,hto,hrange⟩ := hnot
    refine h ⟨fun v hv => hfrom v hv,fun w hw => hto w hw,fun v w s e hv hw hs he => ?_⟩
    have hin := hrange v w s e hv hw hs he
    omega

theorem Readable.zoned {v : String} (h : Readable parse v) : Zoned v := h.imp_right And.left

variable (hparse : DateParse parse)
include hparse

theorem Meaningful.readable {boundary : Boundary} {value : Option String}
    (h : Meaningful boundary value) {v : String} (hv : given value = some v) (hzone : Zoned v) :
    Readable parse v := by
  obtain ⟨ms,hms⟩ := Option.ne_none_iff_exists'.mp (h v hv)
  exact (denotes_readTime hparse hms hzone).1

theorem Meaningful.boundExact {boundary : Boundary} {value normalized : Option String}
    (h : Meaningful boundary value) (hread : ∀ v, given value = some v → Readable parse v)
    (hwritten : Written parse boundary value normalized) :
    BoundExact parse boundary value normalized := by
  unfold Written at hwritten
  unfold BoundExact
  cases hv : given value with
  | none =>
    rw [hv] at hwritten
    exact hwritten
  | some v =>
    rw [hv] at hwritten
    obtain ⟨text,htext,htime⟩ := hwritten
    obtain ⟨ms,hms⟩ := Option.ne_none_iff_exists'.mp (h v hv)
    exact ⟨text,ms,htext,htime.trans (denotes_readTime hparse hms (hread v hv).zoned).2,hms⟩

theorem exactlyParsed_iff_accepted :
    ExactlyParsed parse maxRangeDays input ↔
      (Accepted parse maxRangeDays input ↔ Acceptable maxRangeDays input) := by
  have haccepted : (∃ range, parseUtcDateRange parse input (some maxRangeDays) = .ok range) ↔
      Accepted parse maxRangeDays input :=
    ⟨fun ⟨_,h⟩ => (accepted_of_ok hparse h).1,ok_of_accepted hparse⟩
  unfold ExactlyParsed
  rw [haccepted]
  refine and_iff_left_of_imp fun hiff range hrange => ?_
  obtain ⟨haccept,hstart,hend⟩ := accepted_of_ok hparse hrange
  obtain ⟨hfrom,hto,-⟩ := hiff.mp haccept
  exact ⟨hfrom.boundExact hparse haccept.1 hstart,hto.boundExact hparse haccept.2.1 hend⟩

theorem accepted_iff_acceptable_of_meaningful (hmax : 1 ≤ maxRangeDays)
    (hfrom : Meaningful .fromBound input.fromValue) (hto : Meaningful .toBound input.toValue)
    (hreadFrom : ∀ v, given input.fromValue = some v → Readable parse v)
    (hreadTo : ∀ w, given input.toValue = some w → Readable parse w) :
    (Accepted parse maxRangeDays input ↔ Acceptable maxRangeDays input) ↔
      ∀ v w s e, given input.fromValue = some v → given input.toValue = some w →
        denotes .fromBound v = some s → denotes .toBound w = some e →
        (e/86400000-s/86400000 = (maxRangeDays : ℤ)-1 → e % 86400000 ≤ s % 86400000+999) ∧
          (e/86400000-s/86400000 = maxRangeDays → s % 86400000 < e % 86400000+86399001) := by
  by_cases hboth : ∃ v w s e, given input.fromValue = some v ∧ given input.toValue = some w ∧
      denotes .fromBound v = some s ∧ denotes .toBound w = some e
  · obtain ⟨v,w,s,e,hv,hw,hs,he⟩ := hboth
    have hread := (denotes_readTime hparse hs (hreadFrom v hv).zoned).2
    have hread' := (denotes_readTime hparse he (hreadTo w hw).zoned).2
    have haccepted : Accepted parse maxRangeDays input ↔
        s ≤ e ∧ e-s ≤ ((maxRangeDays : ℤ)-1)*86400000+999 := by
      refine ⟨fun h => h.2.2 v w s e hv hw hread hread',fun h => ⟨hreadFrom,hreadTo,?_⟩⟩
      intro v' w' s' e' hv' hw' hs' he'
      obtain rfl := Option.some.inj (hv.symm.trans hv')
      obtain rfl := Option.some.inj (hw.symm.trans hw')
      obtain rfl := Option.some.inj (hread.symm.trans hs')
      obtain rfl := Option.some.inj (hread'.symm.trans he')
      exact h
    have hacceptable : Acceptable maxRangeDays input ↔
        s ≤ e ∧ e/86400000-s/86400000+1 ≤ (maxRangeDays : ℤ) := by
      refine ⟨fun h => h.2.2 v w s e hv hw hs he,fun h => ⟨hfrom,hto,?_⟩⟩
      intro v' w' s' e' hv' hw' hs' he'
      obtain rfl := Option.some.inj (hv.symm.trans hv')
      obtain rfl := Option.some.inj (hw.symm.trans hw')
      obtain rfl := Option.some.inj (hs.symm.trans hs')
      obtain rfl := Option.some.inj (he.symm.trans he')
      exact h
    rw [haccepted,hacceptable,length_check_iff hmax]
    refine ⟨fun h v' w' s' e' hv' hw' hs' he' => ?_,fun h => h v w s e hv hw hs he⟩
    obtain rfl := Option.some.inj (hv.symm.trans hv')
    obtain rfl := Option.some.inj (hw.symm.trans hw')
    obtain rfl := Option.some.inj (hs.symm.trans hs')
    obtain rfl := Option.some.inj (he.symm.trans he')
    exact h
  · have hnever : ∀ v w s e, given input.fromValue = some v → given input.toValue = some w →
        denotes .fromBound v = some s → denotes .toBound w = some e → False :=
      fun v w s e hv hw hs he => hboth ⟨v,w,s,e,hv,hw,hs,he⟩
    have haccepted : Accepted parse maxRangeDays input := by
      refine ⟨hreadFrom,hreadTo,fun v w s e hv hw _ _ => ?_⟩
      obtain ⟨ms,hms⟩ := Option.ne_none_iff_exists'.mp (hfrom v hv)
      obtain ⟨ms',hms'⟩ := Option.ne_none_iff_exists'.mp (hto w hw)
      exact (hnever v w ms ms' hv hw hms hms').elim
    have hacceptable : Acceptable maxRangeDays input :=
      ⟨hfrom,hto,fun v w s e hv hw hs he => (hnever v w s e hv hw hs he).elim⟩
    exact iff_of_true (iff_of_true haccepted hacceptable)
      fun v w s e hv hw hs he => (hnever v w s e hv hw hs he).elim

theorem readRight_of_refused
    (h : Refused parse input.fromValue ∨ Refused parse input.toValue) :
    ReadRight parse maxRangeDays input ↔ ToRefuse maxRangeDays input := by
  refine ⟨?_,fun hrefuse => .inl ⟨h,hrefuse⟩⟩
  rintro (⟨-,hrefuse⟩ | ⟨hfrom,hto,-⟩ | ⟨v,w,s,e,hv,hw,hnone | hnone,-⟩)
  · exact hrefuse
  · rcases h with ⟨v,hv,hread⟩ | ⟨w,hw,hread⟩
    · have hmeaningful : Meaningful .fromBound input.fromValue := fun v hv => (hfrom v hv).1
      exact absurd (hmeaningful.readable hparse hv (hfrom v hv).2) hread
    · have hmeaningful : Meaningful .toBound input.toValue := fun w hw => (hto w hw).1
      exact absurd (hmeaningful.readable hparse hw (hto w hw).2) hread
  · exact .inl ⟨v,hv,hnone⟩
  · exact .inr (.inl ⟨w,hw,hnone⟩)

/-- The ranges are parsed exactly under that condition on the bounds. -/
theorem parseUtcDateRange_exact_iff (hmax : 1 ≤ maxRangeDays) :
    ExactlyParsed parse maxRangeDays input ↔ ReadRight parse maxRangeDays input := by
  rw [exactlyParsed_iff_accepted hparse]
  by_cases hrefused : Refused parse input.fromValue ∨ Refused parse input.toValue
  · have haccepted : ¬Accepted parse maxRangeDays input := by
      rintro ⟨hfrom,hto,-⟩
      rcases hrefused with ⟨v,hv,hread⟩ | ⟨w,hw,hread⟩
      · exact hread (hfrom v hv)
      · exact hread (hto w hw)
    rw [readRight_of_refused hparse hrefused,toRefuse_iff,iff_false_left haccepted]
  rw [not_or] at hrefused
  have hreadFrom : ∀ v, given input.fromValue = some v → Readable parse v :=
    fun v hv => not_not.mp fun hread => hrefused.1 ⟨v,hv,hread⟩
  have hreadTo : ∀ w, given input.toValue = some w → Readable parse w :=
    fun w hw => not_not.mp fun hread => hrefused.2 ⟨w,hw,hread⟩
  simp only [ReadRight,hrefused.1,hrefused.2,false_or,false_and]
  by_cases hmeaningful : Meaningful .fromBound input.fromValue ∧ Meaningful .toBound input.toValue
  · obtain ⟨hfrom,hto⟩ := hmeaningful
    rw [accepted_iff_acceptable_of_meaningful hparse hmax hfrom hto hreadFrom hreadTo]
    refine ⟨fun h => .inl ⟨fun v hv => ⟨hfrom v hv,(hreadFrom v hv).zoned⟩,
      fun w hw => ⟨hto w hw,(hreadTo w hw).zoned⟩,h⟩,fun h => h.elim (fun h => h.2.2) ?_⟩
    rintro ⟨v,w,-,-,hv,hw,hnone | hnone,-⟩
    · exact absurd hnone (hfrom v hv)
    · exact absurd hnone (hto w hw)
  · -- one bound denotes nothing, so that the request has to be refused for its length
    have hacceptable : ¬Acceptable maxRangeDays input := fun h => hmeaningful ⟨h.1,h.2.1⟩
    rw [iff_false_right hacceptable]
    constructor
    · intro haccepted
      right
      by_contra hnone
      refine haccepted ⟨hreadFrom,hreadTo,fun v w s e hv hw hs he => ?_⟩
      have hloose : denotes .fromBound v = none ∨ denotes .toBound w = none := by
        by_contra hsome
        rw [not_or] at hsome
        refine hmeaningful ⟨fun v' hv' => ?_,fun w' hw' => ?_⟩
        · exact Option.some.inj (hv.symm.trans hv') ▸ hsome.1
        · exact Option.some.inj (hw.symm.trans hw') ▸ hsome.2
      by_contra hrange
      rw [not_and_or,not_le,not_le] at hrange
      exact hnone ⟨v,w,s,e,hv,hw,hloose,hs,he,hrange⟩
    · rintro (⟨hfrom,hto,-⟩ | ⟨v,w,s,e,hv,hw,-,hs,he,hrange⟩) haccepted
      · exact hmeaningful ⟨fun v hv => (hfrom v hv).1,fun w hw => (hto w hw).1⟩
      · obtain ⟨hle,hlen⟩ := haccepted.2.2 v w s e hv hw hs he
        rcases hrange with hlt | hlt
        · exact absurd hle (not_le.mpr hlt)
        · exact absurd hlen (not_le.mpr hlt)

omit hparse

theorem dateParse_parseISO : DateParse parseISO :=
  ⟨fun _ _ h => h,fun _ _ => abs_le_of_parseInstant⟩

def oneDay : UtcDateRangeInput := ⟨some "2024-01-15",some "2024-01-15"⟩

def noDate : UtcDateRangeInput := ⟨some "2024-13-45",none⟩

def wholeHours : UtcDateRangeInput := ⟨some "2024-01-15T10:00:00+02",none⟩

/-- One day is refused where one day is allowed, a date of a 13th month is taken, and an offset
of whole hours is not. -/
theorem parseUtcDateRange_oneDay_noDate :
    ¬ExactlyParsed parseISO 1 oneDay ∧ ¬ExactlyParsed parseISO 366 noDate ∧
      ¬ExactlyParsed parseISO 366 wholeHours := by
  rw [exactlyParsed_iff_accepted dateParse_parseISO,exactlyParsed_iff_accepted dateParse_parseISO,
    exactlyParsed_iff_accepted dateParse_parseISO]
  refine ⟨?_,?_,?_⟩
  · have hfirst : denotes .fromBound "2024-01-15" = some 1705276800000 := by decide
    have hlast : denotes .toBound "2024-01-15" = some 1705363199999 := by decide
    have hdate : Zoned "2024-01-15" := .inl (by decide)
    have hbound : ∀ v, given (some "2024-01-15") = some v → v = "2024-01-15" :=
      fun v hv => (Option.some.inj hv).symm
    have hfrom : Meaningful .fromBound oneDay.fromValue := by
      intro v hv
      rw [hbound v hv,hfirst]
      exact Option.some_ne_none _
    have hto : Meaningful .toBound oneDay.toValue := by
      intro v hv
      rw [hbound v hv,hlast]
      exact Option.some_ne_none _
    rw [accepted_iff_acceptable_of_meaningful dateParse_parseISO le_rfl hfrom hto
      (fun v hv => hfrom.readable dateParse_parseISO hv (hbound v hv ▸ hdate))
      fun v hv => hto.readable dateParse_parseISO hv (hbound v hv ▸ hdate)]
    intro h
    have hday := (h _ _ _ _ rfl rfl hfirst hlast).1 (by norm_num)
    norm_num at hday
  · intro h
    have haccepted : Accepted parseISO 366 noDate := by
      have hto : given noDate.toValue = none := rfl
      refine ⟨fun v hv => .inl ?_,fun w hw => ?_,fun v w s e _ hw => ?_⟩
      · obtain rfl : "2024-13-45" = v := Option.some.inj hv
        decide
      · rw [hto] at hw
        cases hw
      · rw [hto] at hw
        cases hw
    have hnone : denotes .fromBound "2024-13-45" = none := by decide
    exact (h.mp haccepted).1 _ rfl hnone
  · intro h
    have hacceptable : Acceptable 366 wholeHours := by
      have hto : given wholeHours.toValue = none := rfl
      have hinstant : denotes .fromBound "2024-01-15T10:00:00+02" = some 1705305600000 := by decide
      refine ⟨fun v hv => ?_,fun w hw => ?_,fun v w s e _ hw => ?_⟩
      · obtain rfl : "2024-01-15T10:00:00+02" = v := Option.some.inj hv
        rw [hinstant]
        exact Option.some_ne_none _
      · rw [hto] at hw
        cases hw
      · rw [hto] at hw
        cases hw
    have hread := (h.mpr hacceptable).1 "2024-01-15T10:00:00+02" rfl
    have hzone : ¬Zoned "2024-01-15T10:00:00+02" := by
      unfold Zoned
      decide
    exact hzone hread.zoned

/-- A day and an instant are taken where three days are allowed. -/
theorem parseUtcDateRange_exact_twoDays :
    ExactlyParsed parseISO 3 ⟨some "2024-01-15",some "2024-01-16T12:30+02:00"⟩ := by
  have hfirst : denotes .fromBound "2024-01-15" = some 1705276800000 := by decide
  have hlast : denotes .toBound "2024-01-16T12:30+02:00" = some 1705401000000 := by decide
  refine (parseUtcDateRange_exact_iff dateParse_parseISO (by norm_num)).mpr
    (.inr (.inl ⟨?_,?_,?_⟩))
  · intro v hv
    obtain rfl : "2024-01-15" = v := Option.some.inj hv
    rw [hfirst]
    exact ⟨Option.some_ne_none _,.inl (by decide)⟩
  · intro v hv
    obtain rfl : "2024-01-16T12:30+02:00" = v := Option.some.inj hv
    rw [hlast]
    exact ⟨Option.some_ne_none _,.inr (by decide)⟩
  · intro v w s e hv hw hs he
    obtain rfl : "2024-01-15" = v := Option.some.inj hv
    obtain rfl : "2024-01-16T12:30+02:00" = w := Option.some.inj hw
    obtain rfl := Option.some.inj (hfirst.symm.trans hs)
    obtain rfl := Option.some.inj (hlast.symm.trans he)
    norm_num

end Exactness

end YieldVault.Backend
