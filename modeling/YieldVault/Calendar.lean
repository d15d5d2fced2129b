import YieldVault.Texts

/-! Days of the Gregorian calendar by their numbers and by their texts. -/
namespace Calendar
open Texts

section Numbers

def leap (year : ℕ) : Bool := year % 4 = 0 && (year % 100 ≠ 0 || year % 400 = 0)

def daysInMonth (year month : ℕ) : ℕ :=
  if month = 2 then (if leap year then 29 else 28)
  else if month = 4 ∨ month = 6 ∨ month = 9 ∨ month = 11 then 30 else 31

/-- Year, month and day as the calendar has them. -/
structure IsDate (date : ℕ × ℕ × ℕ) : Prop where
  month_pos : 1 ≤ date.2.1
  month_le : date.2.1 ≤ 12
  day_pos : 1 ≤ date.2.2
  day_le : date.2.2 ≤ daysInMonth date.1 date.2.1

def daysBefore (year : ℕ) : ℕ := 365*year + ((year+3)/4 + (year+399)/400 - (year+99)/100)

def monthStart (year month : ℕ) : ℕ :=
  (367*month-362)/12 - if month ≤ 2 then 0 else if leap year then 1 else 2

/-- The days from 0000-01-01 to the date. -/
def dayNumber (date : ℕ × ℕ × ℕ) : ℕ :=
  daysBefore date.1 + monthStart date.1 date.2.1 + (date.2.2-1)

instance (date : ℕ × ℕ × ℕ) : Decidable (IsDate date) :=
  decidable_of_iff (1 ≤ date.2.1 ∧ date.2.1 ≤ 12 ∧ 1 ≤ date.2.2 ∧
      date.2.2 ≤ daysInMonth date.1 date.2.1)
    ⟨fun ⟨h₁,h₂,h₃,h₄⟩ => ⟨h₁,h₂,h₃,h₄⟩,fun h => ⟨h.month_pos,h.month_le,h.day_pos,h.day_le⟩⟩

theorem year_split (year : ℕ) : ∃ e c q s,
    c < 4 ∧ q < 25 ∧ s < 4 ∧ year = 400*e+100*c+4*q+s :=
  ⟨year/400,year/100 % 4,year/4 % 25,year % 4,by omega,by omega,by omega,by omega⟩

theorem leap_split {e c q s : ℕ} (hc : c < 4) (hq : q < 25) (hs : s < 4) :
    leap (400*e+100*c+4*q+s) = true ↔ s = 0 ∧ (q = 0 → c = 0) := by
  have h4 : (400*e+100*c+4*q+s) % 4 = s := by omega
  have h100 : (400*e+100*c+4*q+s) % 100 = 4*q+s := by omega
  have h400 : (400*e+100*c+4*q+s) % 400 = 100*c+4*q+s := by omega
  simp only [leap,h4,h100,h400,Bool.and_eq_true,Bool.or_eq_true,decide_eq_true_eq]
  omega

theorem leap_succ_split {e c q s : ℕ} (hc : c < 4) (hq : q < 25) (hs : s < 4) :
    leap (400*e+100*c+4*q+s+1) = true ↔ s = 3 ∧ (q = 24 → c = 3) := by
  have h4 : (400*e+100*c+4*q+s+1) % 4 = (s+1) % 4 := by omega
  have h100 : (400*e+100*c+4*q+s+1) % 100 = (4*q+s+1) % 100 := by omega
  have h400 : (400*e+100*c+4*q+s+1) % 400 = (100*c+4*q+s+1) % 400 := by omega
  simp only [leap,h4,h100,h400,Bool.and_eq_true,Bool.or_eq_true,decide_eq_true_eq]
  omega

/-- Seen from March, every cycle has its leap day at its end. -/
theorem daysBefore_succ_split {e c q s : ℕ} (hc : c < 4) (hq : q < 25) (hs : s < 4) :
    daysBefore (400*e+100*c+4*q+s+1) = 146097*e+36524*c+1461*q+365*s+366 := by
  have h4 : (400*e+100*c+4*q+s+1+3)/4 = 100*e+25*c+q+1 := by omega
  have h100 : (400*e+100*c+4*q+s+1+99)/100 = 4*e+c+1 := by omega
  have h400 : (400*e+100*c+4*q+s+1+399)/400 = e+1 := by omega
  rw [daysBefore,h4,h100,h400]
  omega

theorem daysBefore_succ (year : ℕ) :
    daysBefore (year+1) = daysBefore year + if leap year then 366 else 365 := by
  obtain ⟨e,c,q,s,hc,hq,hs,rfl⟩ := year_split year
  have h4 : (400*e+100*c+4*q+s+3)/4 = 100*e+25*c+q+min s 1 := by omega
  have h100 : (400*e+100*c+4*q+s+99)/100 = 4*e+c+min (4*q+s) 1 := by omega
  have h400 : (400*e+100*c+4*q+s+399)/400 = e+min (100*c+4*q+s) 1 := by omega
  rw [daysBefore_succ_split hc hq hs,daysBefore,h4,h100,h400]
  simp only [leap_split hc hq hs]
  split
  · omega
  · omega

theorem daysBefore_le (year : ℕ) : ∀ later, daysBefore year ≤ daysBefore (year+later)
  | 0 => le_rfl
  | later+1 => by
    have := daysBefore_le year later
    have := daysBefore_succ (year+later)
    rw [← Nat.add_assoc]
    omega

theorem IsDate.monthStart_lt {y m d m' : ℕ} (h : IsDate (y,m,d)) (hm : m < m') (hm' : m' ≤ 12) :
    monthStart y m + (d-1) < monthStart y m' := by
  obtain ⟨h1,-,h2,h3⟩ := h
  have h4 : m ≤ 11 := by omega
  simp only [daysInMonth] at h1 h2 h3
  unfold monthStart
  interval_cases m <;> split_ifs at h3 ⊢ <;> omega

theorem IsDate.dayOfYear_lt {y m d : ℕ} (h : IsDate (y,m,d)) :
    monthStart y m + (d-1) < if leap y then 366 else 365 := by
  obtain ⟨h1,h4,h2,h3⟩ := h
  simp only [daysInMonth] at h1 h2 h3 h4
  unfold monthStart
  interval_cases m <;> split_ifs at h3 ⊢ <;> omega

theorem dayNumber_lt_of_year_lt {date date' : ℕ × ℕ × ℕ} (h : IsDate date) (hlt : date.1 < date'.1) :
    dayNumber date < dayNumber date' := by
  obtain ⟨y,m,d⟩ := date
  have hday := h.dayOfYear_lt
  have hsucc := daysBefore_succ y
  have hle := daysBefore_le (y+1) (date'.1-(y+1))
  rw [Nat.add_sub_of_le hlt] at hle
  unfold dayNumber
  dsimp only
  omega

theorem dayNumber_lt {date date' : ℕ × ℕ × ℕ} (h : IsDate date) (h' : IsDate date')
    (hlt : toLex (date.1,toLex date.2) < toLex (date'.1,toLex date'.2)) : dayNumber date < dayNumber date' := by
  obtain ⟨y,m,d⟩ := date
  obtain ⟨y',m',d'⟩ := date'
  simp only [Prod.Lex.toLex_lt_toLex] at hlt
  rcases hlt with hy | ⟨rfl,hm | ⟨rfl,hd⟩⟩
  · exact dayNumber_lt_of_year_lt h hy
  · have := h.monthStart_lt hm h'.month_le
    simp only [dayNumber]
    omega
  · have := h.day_pos
    simp only [dayNumber] at this ⊢
    omega

/-- A day of an era by its century, its cycle of four years, its year and its day, each
counted from March. -/
theorem era_split (dayOfEra : ℕ) (h : dayOfEra < 146097) : ∃ c q s d,
    c < 4 ∧ q < 25 ∧ s < 4 ∧ d ≤ 365 ∧ (d = 365 → s = 3 ∧ (q = 24 → c = 3)) ∧
      dayOfEra = 36524*c+1461*q+365*s+d := by
  obtain ⟨c,r,hc,hr,hcr⟩ : ∃ c r, c < 4 ∧ (r < 36524 ∨ r = 36524 ∧ c = 3) ∧ dayOfEra = 36524*c+r :=
    ⟨min (dayOfEra/36524) 3,dayOfEra-36524*min (dayOfEra/36524) 3,by omega,by omega,by omega⟩
  obtain ⟨q,t,hq,ht,hqt⟩ : ∃ q t, q < 25 ∧ t < 1461 ∧ r = 1461*q+t :=
    ⟨r/1461,r%1461,by omega,by omega,by omega⟩
  obtain ⟨s,d,hs,hd,hsd⟩ : ∃ s d, s < 4 ∧ (d < 365 ∨ d = 365 ∧ s = 3) ∧ t = 365*s+d :=
    ⟨min (t/365) 3,t-365*min (t/365) 3,by omega,by omega,by omega⟩
  exact ⟨c,q,s,d,hc,hq,hs,by omega,by omega,by omega⟩

theorem yearOfEra_eq {c q s d : ℕ} (hc : c < 4) (hq : q < 25) (hs : s < 4) (hd : d ≤ 365)
    (hleap : d = 365 → s = 3 ∧ (q = 24 → c = 3)) {dayOfEra : ℕ}
    (h : dayOfEra = 36524*c+1461*q+365*s+d) :
    (dayOfEra-dayOfEra/1460+dayOfEra/36524-dayOfEra/146096)/365 = 100*c+4*q+s := by
  have hlast : dayOfEra/36524 = c ∧ dayOfEra/146096 = 0 ∨
      dayOfEra/36524 = 4 ∧ dayOfEra/146096 = 1 ∧ c = 3 ∧ q = 24 ∧ s = 3 ∧ d = 365 := by
    by_cases hd : c = 3 ∧ q = 24 ∧ s = 3 ∧ d = 365
    · right; omega
    · left
      have : dayOfEra < 36524*(c+1) := by omega
      omega
  have hcycle : dayOfEra/1460 = 25*c+q ∧ d < 365 ∨ dayOfEra/1460 = 25*c+q+1 ∧ s = 3 ∧ 0 < d := by
    by_cases hd : 24*c+q+365*s+d < 1460
    · left; omega
    · right; omega
  rcases hlast with ⟨hc',hn⟩ | ⟨hc',hn,rfl,rfl,rfl,rfl⟩
  · rw [hc',hn]
    rcases hcycle with ⟨hk,hd⟩ | ⟨hk,rfl,hd⟩
    · rw [hk]
      omega
    · rw [hk]
      omega
  · rw [h]

theorem march_to_december {mp doy : ℕ} (y : ℕ) (hmp : mp < 10) (hlow : 153*mp ≤ 5*doy+2)
    (hhigh : 5*doy+2 < 153*(mp+1)) :
    IsDate (y,mp+3,doy-(153*mp+2)/5+1) ∧
      dayNumber (y,mp+3,doy-(153*mp+2)/5+1) + 306 = daysBefore (y+1) + doy := by
  have hsucc := daysBefore_succ y
  refine ⟨⟨?_,?_,Nat.succ_le_succ (Nat.zero_le _),?_⟩,?_⟩
  · dsimp only; omega
  · dsimp only; omega
  · simp only [daysInMonth]
    interval_cases mp <;> simp <;> omega
  · simp only [dayNumber,monthStart]
    interval_cases mp <;> simp <;> split_ifs at * <;> omega

theorem january_february {mp doy : ℕ} (y : ℕ) (hmp : 10 ≤ mp) (hmp' : mp ≤ 11)
    (hlow : 153*mp ≤ 5*doy+2) (hhigh : 5*doy+2 < 153*(mp+1)) (hdoy : doy ≤ 365)
    (hleap : doy = 365 → leap (y+1) = true) :
    IsDate (y+1,mp-9,doy-(153*mp+2)/5+1) ∧
      dayNumber (y+1,mp-9,doy-(153*mp+2)/5+1) + 306 = daysBefore (y+1) + doy := by
  refine ⟨⟨?_,?_,Nat.succ_le_succ (Nat.zero_le _),?_⟩,?_⟩
  · dsimp only; omega
  · dsimp only; omega
  · simp only [daysInMonth]
    interval_cases mp
    · simp
      omega
    · simp only [Nat.reduceSub,if_true]
      split_ifs with hl
      · omega
      · have := mt hleap hl
        omega
  · simp only [dayNumber,monthStart]
    interval_cases mp <;> simp <;> omega

theorem civilDate_split {e c q s d n : ℕ} (hc : c < 4) (hq : q < 25) (hs : s < 4) (hd : d ≤ 365)
    (hleap : d = 365 → s = 3 ∧ (q = 24 → c = 3))
    (h : n+719468 = 146097*e+36524*c+1461*q+365*s+d) :
    civilDate n = (let mp := (5*d+2)/153
      let month := if mp < 10 then mp+3 else mp-9
      let year := 100*c+4*q+s+e*400
      (if month ≤ 2 then year+1 else year,month,d-(153*mp+2)/5+1)) := by
  have hera : (n+719468) % 146097 = 36524*c+1461*q+365*s+d := by omega
  have hdiv : (n+719468)/146097 = e := by omega
  have hday : 36524*c+1461*q+365*s+d-(365*(100*c+4*q+s)+(100*c+4*q+s)/4-(100*c+4*q+s)/100) = d := by
    have : (100*c+4*q+s)/4 = 25*c+q := by omega
    have : (100*c+4*q+s)/100 = c := by omega
    omega
  simp only [civilDate,hera,hdiv,yearOfEra_eq hc hq hs hd hleap rfl,hday]

theorem civilDate_spec (n : ℕ) :
    IsDate (civilDate n) ∧ dayNumber (civilDate n) = n+719528 := by
  obtain ⟨c,q,s,d,hc,hq,hs,hd,hleap,h⟩ := era_split ((n+719468) % 146097) (Nat.mod_lt _ (by norm_num))
  have hn : n+719468 = 146097*((n+719468)/146097)+36524*c+1461*q+365*s+d := by omega
  generalize (n+719468)/146097 = e at hn
  have hsucc := daysBefore_succ_split (e := e) hc hq hs
  rw [civilDate_split hc hq hs hd hleap hn]
  have hy : 100*c+4*q+s+e*400 = 400*e+100*c+4*q+s := by omega
  have hmonth : 153*((5*d+2)/153) ≤ 5*d+2 ∧ 5*d+2 < 153*((5*d+2)/153+1) := by omega
  rw [hy]
  generalize hm : (5*d+2)/153 = mp at hmonth ⊢
  simp only
  split
  · have hge : ¬mp+3 ≤ 2 := by omega
    rw [if_neg hge]
    obtain ⟨hdate,hnumber⟩ := march_to_december (400*e+100*c+4*q+s) ‹_› hmonth.1 hmonth.2
    exact ⟨hdate,by omega⟩
  · have hle : mp-9 ≤ 2 := by omega
    rw [if_pos hle]
    obtain ⟨hdate,hnumber⟩ := january_february (400*e+100*c+4*q+s) (by omega) (by omega) hmonth.1 hmonth.2 hd
      fun h => (leap_succ_split hc hq hs).mpr (hleap h)
    exact ⟨hdate,by omega⟩

/-- The date of a day, from the days since 0000-01-01: the calendar of 2000 years later. -/
def dateOf (n : ℕ) : ℕ × ℕ × ℕ :=
  let (year,month,day) := civilDate (n+10957)
  (year-2000,month,day)

theorem leap_add_eras (y k : ℕ) : leap (y+400*k) = leap y := by
  have h4 : (y+400*k) % 4 = y % 4 := by omega
  have h100 : (y+400*k) % 100 = y % 100 := by omega
  have h400 : (y+400*k) % 400 = y % 400 := by omega
  simp only [leap,h4,h100,h400]

theorem isDate_add_eras {y m d k : ℕ} : IsDate (y+400*k,m,d) ↔ IsDate (y,m,d) := by
  have hdays : daysInMonth (y+400*k) m = daysInMonth y m := by simp only [daysInMonth,leap_add_eras]
  exact ⟨fun ⟨h₁,h₂,h₃,h₄⟩ => ⟨h₁,h₂,h₃,hdays ▸ h₄⟩,fun ⟨h₁,h₂,h₃,h₄⟩ => ⟨h₁,h₂,h₃,hdays.symm ▸ h₄⟩⟩

theorem dayNumber_add_eras (y m d k : ℕ) :
    dayNumber (y+400*k,m,d) = dayNumber (y,m,d)+146097*k := by
  have h4 : (y+400*k+3)/4 = (y+3)/4+100*k := by omega
  have h100 : (y+400*k+99)/100 = (y+99)/100+4*k := by omega
  have h400 : (y+400*k+399)/400 = (y+399)/400+k := by omega
  have hle : (y+99)/100 ≤ (y+3)/4 := by omega
  simp only [dayNumber,daysBefore,monthStart,leap_add_eras,h4,h100,h400]
  omega

theorem dateOf_spec (n : ℕ) : IsDate (dateOf n) ∧ dayNumber (dateOf n) = n := by
  obtain ⟨hdate,hnumber⟩ := civilDate_spec (n+10957)
  unfold dateOf
  generalize civilDate (n+10957) = date at *
  obtain ⟨y,m,d⟩ := date
  have hyear : 2000 ≤ y := by
    by_contra hlt
    have hlt := dayNumber_lt_of_year_lt hdate
      (show y < ((2000,1,1) : ℕ × ℕ × ℕ).1 from not_le.mp hlt)
    rw [hnumber] at hlt
    have : dayNumber (2000,1,1) = 730485 := by decide
    omega
  obtain ⟨z,rfl⟩ := Nat.exists_eq_add_of_le' hyear
  have hnumber' := dayNumber_add_eras z m d 5
  rw [show 400*5 = 2000 from rfl] at hnumber'
  refine ⟨?_,?_⟩
  · have hshift : IsDate (z+400*5,m,d) := hdate
    simpa using isDate_add_eras.mp hshift
  · simp only [Nat.add_sub_cancel]
    omega

theorem isDate_dateOf (n : ℕ) : IsDate (dateOf n) := (dateOf_spec n).1

@[simp] theorem dayNumber_dateOf (n : ℕ) : dayNumber (dateOf n) = n := (dateOf_spec n).2

theorem lex_trichotomy (date date' : ℕ × ℕ × ℕ) :
    toLex (date.1,toLex date.2) < toLex (date'.1,toLex date'.2) ∨ date = date' ∨
      toLex (date'.1,toLex date'.2) < toLex (date.1,toLex date.2) := by
  rcases lt_trichotomy (toLex (date.1,toLex date.2)) (toLex (date'.1,toLex date'.2)) with h | h | h
  · exact .inl h
  · have hpair := Prod.ext_iff.mp (toLex_inj.mp h)
    exact .inr (.inl (Prod.ext hpair.1 (toLex_inj.mp hpair.2)))
  · exact .inr (.inr h)

theorem dayNumber_inj {date date' : ℕ × ℕ × ℕ} (h : IsDate date) (h' : IsDate date')
    (heq : dayNumber date = dayNumber date') : date = date' := by
  rcases lex_trichotomy date date' with hlt | hsame | hlt
  · exact absurd heq (dayNumber_lt h h' hlt).ne
  · exact hsame
  · exact absurd heq.symm (dayNumber_lt h' h hlt).ne

theorem dateOf_dayNumber {date : ℕ × ℕ × ℕ} (h : IsDate date) : dateOf (dayNumber date) = date :=
  dayNumber_inj (isDate_dateOf _) h (dayNumber_dateOf _)

theorem dateOf_add_eras (n k : ℕ) :
    dateOf (n+146097*k) = ((dateOf n).1+400*k,(dateOf n).2) := by
  refine dayNumber_inj (isDate_dateOf _) (isDate_add_eras.mpr (isDate_dateOf n)) ?_
  rw [dayNumber_dateOf,dayNumber_add_eras,dayNumber_dateOf]

end Numbers

section Digits

def isDigit (c : Char) : Bool := '0' ≤ c && c ≤ '9'

def digit (c : Char) : ℕ := c.toNat-48

def number : List Char → ℕ
  | [] => 0
  | c :: text => digit c*10^text.length+number text

@[simp] theorem length_padded (width n : ℕ) : (padded width n).length = width := by
  simp [padded]

theorem padded_succ (width n : ℕ) :
    padded (width+1) n = Nat.digitChar (n/10^width % 10) :: padded width n := by
  simp [padded,List.range_succ]

theorem padded_add_mul (width n k : ℕ) : padded width (k*10^width+n) = padded width n := by
  unfold padded
  refine List.map_congr_left fun j hj => ?_
  have hj : j < width := by simpa using hj
  obtain ⟨i,rfl⟩ := Nat.exists_eq_add_of_lt hj
  have hpow : k*10^(j+i+1)+n = n+10^j*(10*(k*10^i)) := by ring
  rw [hpow,Nat.add_mul_div_left _ _ (by positivity),Nat.add_mul_mod_self_left]

theorem digit_digitChar {d : ℕ} (h : d < 10) : digit (Nat.digitChar d) = d := by
  interval_cases d <;> rfl

theorem isDigit_digitChar {d : ℕ} (h : d < 10) : isDigit (Nat.digitChar d) = true := by
  interval_cases d <;> rfl

theorem digit_lt {c : Char} (h : isDigit c = true) : digit c < 10 := by
  simp only [isDigit,Bool.and_eq_true,decide_eq_true_eq] at h
  have hle : c.toNat ≤ '9'.toNat := h.2
  have : '9'.toNat = 57 := rfl
  unfold digit
  omega

theorem ne_of_isDigit {c d : Char} (h : isDigit c = true) (hd : isDigit d = false) : c ≠ d := by
  rintro rfl
  rw [h] at hd
  cases hd

theorem digitChar_digit {c : Char} (h : isDigit c = true) : Nat.digitChar (digit c) = c := by
  have hlt := digit_lt h
  simp only [isDigit,Bool.and_eq_true,decide_eq_true_eq] at h
  have hge : '0'.toNat ≤ c.toNat := h.1
  have hzero : '0'.toNat = 48 := rfl
  have hc : c = Char.ofNat (48+digit c) := by
    rw [show 48+digit c = c.toNat by unfold digit; omega,Char.ofNat_toNat]
  generalize digit c = d at *
  subst hc
  interval_cases d <;> rfl

theorem all_isDigit_padded (width n : ℕ) : (padded width n).all isDigit = true := by
  rw [List.all_eq_true]
  intro c hc
  obtain ⟨k,-,rfl⟩ := List.mem_map.mp hc
  exact isDigit_digitChar (Nat.mod_lt _ (by norm_num))

theorem number_padded (width n : ℕ) : number (padded width n) = n % 10^width := by
  induction width with
  | zero => simp [padded,number,Nat.mod_one]
  | succ width ih =>
    rw [padded_succ,number,ih,length_padded,digit_digitChar (Nat.mod_lt _ (by norm_num)),
      pow_succ,Nat.mod_mul]
    ring

theorem number_lt {text : List Char} (h : text.all isDigit = true) :
    number text < 10^text.length := by
  induction text with
  | nil => simp [number]
  | cons c text ih =>
    obtain ⟨hc,htext⟩ := Bool.and_eq_true_iff.mp h
    have hdigit := digit_lt hc
    calc number (c :: text) = digit c*10^text.length+number text := rfl
      _ < digit c*10^text.length+10^text.length := Nat.add_lt_add_left (ih htext) _
      _ = (digit c+1)*10^text.length := by ring
      _ ≤ 10*10^text.length := Nat.mul_le_mul_right _ hdigit
      _ = 10^(c :: text).length := by rw [List.length_cons,pow_succ,Nat.mul_comm]

theorem padded_number {text : List Char} (h : text.all isDigit = true) :
    padded text.length (number text) = text := by
  induction text with
  | nil => rfl
  | cons c text ih =>
    obtain ⟨hc,htext⟩ := Bool.and_eq_true_iff.mp h
    have hrest := number_lt htext
    have hdiv : (digit c*10^text.length+number text)/10^text.length = digit c := by
      rw [Nat.add_comm,Nat.add_mul_div_right _ _ (by positivity),Nat.div_eq_of_lt hrest,Nat.zero_add]
    rw [List.length_cons,padded_succ,number,hdiv,Nat.mod_eq_of_lt (digit_lt hc),
      digitChar_digit hc,padded_add_mul,ih htext]

theorem digitChar_lt {a b : ℕ} (hb : b < 10) (h : a < b) : Nat.digitChar a < Nat.digitChar b := by
  have hall : ∀ b < 10, ∀ a < b, Nat.digitChar a < Nat.digitChar b := by decide
  exact hall b hb a h

theorem padded_lt {width a b : ℕ} (hb : b < 10^width) (h : a < b) :
    padded width a < padded width b := by
  induction width generalizing a b with
  | zero => omega
  | succ width ih =>
    rw [padded_succ,padded_succ,List.cons_lt_cons_iff]
    have hpos : 0 < 10^width := by positivity
    have hbdiv : b/10^width < 10 := Nat.div_lt_of_lt_mul (by rwa [pow_succ] at hb)
    have hle : a/10^width ≤ b/10^width := Nat.div_le_div_right h.le
    rw [Nat.mod_eq_of_lt hbdiv,Nat.mod_eq_of_lt (hle.trans_lt hbdiv)]
    rcases hle.lt_or_eq with hlt | heq
    · exact .inl (digitChar_lt hbdiv hlt)
    · refine .inr ⟨congrArg _ heq,?_⟩
      have ha := Nat.div_add_mod' a (10^width)
      have hb' := Nat.div_add_mod' b (10^width)
      rw [← ha,← hb',padded_add_mul,padded_add_mul]
      refine ih (Nat.mod_lt _ hpos) ?_
      rw [heq] at ha
      omega

theorem append_lt_append {x y : List Char} (hlt : x < y) (hlen : x.length = y.length)
    (u v : List Char) : x ++ u < y ++ v := by
  induction x generalizing y with
  | nil => cases y with
    | nil => exact absurd hlt (List.lt_irrefl _)
    | cons _ _ => simp at hlen
  | cons a x ih => cases y with
    | nil => simp at hlen
    | cons b y =>
      rw [List.cons_lt_cons_iff] at hlt
      rw [List.cons_append,List.cons_append,List.cons_lt_cons_iff]
      rcases hlt with hab | ⟨rfl,hxy⟩
      · exact .inl hab
      · exact .inr ⟨rfl,ih hxy (by simpa using hlen)⟩

end Digits

section DateTexts

def dateText (date : ℕ × ℕ × ℕ) : List Char :=
  padded 4 date.1 ++ '-' :: padded 2 date.2.1 ++ '-' :: padded 2 date.2.2

/-- The fields of a text `YYYY-MM-DD`, whether the calendar has the date or not. -/
def dateFields : List Char → Option (ℕ × ℕ × ℕ)
  | [y₁,y₂,y₃,y₄,'-',m₁,m₂,'-',d₁,d₂] =>
    if [y₁,y₂,y₃,y₄,m₁,m₂,d₁,d₂].all isDigit then
      some (number [y₁,y₂,y₃,y₄],number [m₁,m₂],number [d₁,d₂])
    else none
  | _ => none

theorem IsDate.lt_hundred {date : ℕ × ℕ × ℕ} (h : IsDate date) : date.2.1 < 100 ∧ date.2.2 < 100 := by
  have hmonth := h.month_le
  have hday := h.day_le
  unfold daysInMonth at hday
  refine ⟨by omega,?_⟩
  split_ifs at hday <;> omega

theorem length_dateText (date : ℕ × ℕ × ℕ) : (dateText date).length = 10 := by
  simp [dateText]

theorem dateFields_of_digits {ys ms ds : List Char} (hy : ys.length = 4) (hm : ms.length = 2)
    (hd : ds.length = 2) (hys : ys.all isDigit = true) (hms : ms.all isDigit = true)
    (hds : ds.all isDigit = true) :
    dateFields (ys ++ '-' :: ms ++ '-' :: ds) = some (number ys,number ms,number ds) := by
  obtain ⟨y₁,y₂,y₃,y₄,rfl⟩ := List.length_eq_four.mp hy
  obtain ⟨m₁,m₂,rfl⟩ := List.length_eq_two.mp hm
  obtain ⟨d₁,d₂,rfl⟩ := List.length_eq_two.mp hd
  simp only [List.all_cons,List.all_nil,Bool.and_true,Bool.and_eq_true] at hys hms hds
  simp [dateFields,hys,hms,hds]

theorem dateFields_dateText {date : ℕ × ℕ × ℕ} (hyear : date.1 ≤ 9999) (h : IsDate date) :
    dateFields (dateText date) = some date := by
  obtain ⟨hmonth,hday⟩ := h.lt_hundred
  unfold dateText
  rw [dateFields_of_digits (length_padded _ _) (length_padded _ _) (length_padded _ _)
    (all_isDigit_padded _ _) (all_isDigit_padded _ _) (all_isDigit_padded _ _),
    number_padded,number_padded,number_padded,Nat.mod_eq_of_lt (by omega),
    Nat.mod_eq_of_lt (by omega),Nat.mod_eq_of_lt (by omega)]

theorem dateText_of_dateFields {text : List Char} {date : ℕ × ℕ × ℕ}
    (h : dateFields text = some date) : text = dateText date ∧ date.1 ≤ 9999 := by
  unfold dateFields at h
  split at h
  · split at h
    · next y₁ y₂ y₃ y₄ m₁ m₂ d₁ d₂ hall =>
      obtain rfl := Option.some.inj h
      simp only [List.all_cons,List.all_nil,Bool.and_true,Bool.and_eq_true] at hall
      obtain ⟨hy₁,hy₂,hy₃,hy₄,hm₁,hm₂,hd₁,hd₂⟩ := hall
      have hyears : [y₁,y₂,y₃,y₄].all isDigit = true := by simp [hy₁,hy₂,hy₃,hy₄]
      have hmonths : [m₁,m₂].all isDigit = true := by simp [hm₁,hm₂]
      have hdays : [d₁,d₂].all isDigit = true := by simp [hd₁,hd₂]
      have hlt : number [y₁,y₂,y₃,y₄] < 10^4 := number_lt hyears
      refine ⟨?_,by dsimp only; omega⟩
      have hy := padded_number hyears
      have hm := padded_number hmonths
      have hd := padded_number hdays
      simp only [List.length_cons,List.length_nil,Nat.zero_add,Nat.reduceAdd] at hy hm hd
      simp [dateText,hy,hm,hd]
    · exact absurd h (by simp)
  · exact absurd h (by simp)

theorem dateText_lt {date date' : ℕ × ℕ × ℕ} (h : IsDate date) (h' : IsDate date')
    (hyear : date'.1 ≤ 9999)
    (hlt : toLex (date.1,toLex date.2) < toLex (date'.1,toLex date'.2)) :
    dateText date < dateText date' := by
  obtain ⟨hmonth,hday⟩ := h'.lt_hundred
  obtain ⟨y,m,d⟩ := date
  obtain ⟨y',m',d'⟩ := date'
  simp only [Prod.Lex.toLex_lt_toLex] at hlt
  simp only at hyear hmonth hday
  unfold dateText
  rw [List.append_assoc,List.append_assoc]
  rcases hlt with hy | ⟨rfl,hm | ⟨rfl,hd⟩⟩
  · exact append_lt_append (padded_lt (by omega) hy) (by simp) _ _
  · refine List.append_left_lt ?_
    rw [List.cons_append,List.cons_append,List.cons_lt_cons_iff]
    exact .inr ⟨rfl,append_lt_append (padded_lt (by omega) hm) (by simp) _ _⟩
  · refine List.append_left_lt (List.append_left_lt ?_)
    rw [List.cons_lt_cons_iff]
    exact .inr ⟨rfl,padded_lt (by omega) hd⟩

theorem dateOf_year_le {n : ℕ} (h : n < 3652425) : (dateOf n).1 ≤ 9999 := by
  by_contra hyear
  have hlt : ((9999,12,31) : ℕ × ℕ × ℕ).1 < (dateOf n).1 := not_le.mp hyear
  have hnumber := dayNumber_lt_of_year_lt (by decide) hlt
  rw [dayNumber_dateOf,show dayNumber (9999,12,31) = 3652424 by decide] at hnumber
  omega

/-- Within the years of four digits the texts are in the order of the days. -/
theorem dateText_dateOf_lt {n n' : ℕ} (hn' : n' < 3652425) (h : n < n') :
    dateText (dateOf n) < dateText (dateOf n') := by
  have hdate := isDate_dateOf n
  have hdate' := isDate_dateOf n'
  refine dateText_lt hdate hdate' (dateOf_year_le hn') ?_
  rcases lex_trichotomy (dateOf n) (dateOf n') with hlt | heq | hlt
  · exact hlt
  · have := congrArg dayNumber heq
    simp only [dayNumber_dateOf] at this
    omega
  · have := dayNumber_lt hdate' hdate hlt
    simp only [dayNumber_dateOf] at this
    omega

end DateTexts

section Timestamps

def isoYear (year : ℤ) : List Char :=
  if 0 ≤ year ∧ year ≤ 9999 then padded 4 year.toNat
  else (if year < 0 then '-' else '+') :: padded 6 year.natAbs

/-- The date part of an ISO timestamp, from the days since 1970. -/
def isoDate (day : ℤ) : List Char :=
  let era := (day+719528)/146097
  let (year,month,date) := dateOf ((day+719528) % 146097).toNat
  isoYear (year+400*era) ++ '-' :: padded 2 month ++ '-' :: padded 2 date

def isoTime (ms : ℤ) : List Char :=
  'T' :: padded 2 (ms/3600000 % 24).toNat ++ ':' :: padded 2 (ms/60000 % 60).toNat ++
    ':' :: padded 2 (ms/1000 % 60).toNat ++ '.' :: padded 3 (ms % 1000).toNat ++ ['Z']

/-- `Date.prototype.toISOString`, from the milliseconds since 1970, which may be negative. -/
def toISOString (ms : ℤ) : String := String.ofList (isoDate (ms/86400000) ++ isoTime ms)

theorem toList_toISOString (ms : ℤ) : (toISOString ms).toList = isoDate (ms/86400000) ++ isoTime ms :=
  String.toList_ofList

theorem isoTime_add_days (day ms : ℤ) : isoTime (86400000*day+ms) = isoTime ms := by
  have hhours : (86400000*day+ms)/3600000 % 24 = ms/3600000 % 24 := by omega
  have hminutes : (86400000*day+ms)/60000 % 60 = ms/60000 % 60 := by omega
  have hseconds : (86400000*day+ms)/1000 % 60 = ms/1000 % 60 := by omega
  have hms : (86400000*day+ms) % 1000 = ms % 1000 := by omega
  rw [isoTime,isoTime,hhours,hminutes,hseconds,hms]

theorem IsDate.dayNumber_lt {date : ℕ × ℕ × ℕ} (h : IsDate date) (hyear : date.1 ≤ 9999) :
    dayNumber date < 3652425 := by
  have hnext : date.1 < ((10000,1,1) : ℕ × ℕ × ℕ).1 := Nat.lt_succ_of_le hyear
  calc dayNumber date < dayNumber (10000,1,1) := dayNumber_lt_of_year_lt h hnext
    _ = 3652425 := by decide

theorem isoDate_eq {n : ℕ} (h : n < 3652425) : isoDate (n-719528) = dateText (dateOf n) := by
  have hday : (n : ℤ)-719528+719528 = n := by ring
  have hmod : ((n : ℤ) % 146097).toNat = n % 146097 := by omega
  have hn := dateOf_add_eras (n % 146097) (n/146097)
  rw [Nat.mod_add_div] at hn
  have hyear := dateOf_year_le h
  rw [hn] at hyear ⊢
  have hcast : (((dateOf (n % 146097)).1 : ℤ)+400*((n : ℤ)/146097)) =
      (((dateOf (n % 146097)).1+400*(n/146097) : ℕ) : ℤ) := by push_cast; ring
  simp only [isoDate,hday,hmod,hcast,isoYear]
  rw [if_pos ⟨by omega,by dsimp only at hyear; omega⟩]
  rfl

example : toISOString (-1) = "1969-12-31T23:59:59.999Z" := by decide

end Timestamps

section Reading

/-- The number of so many digits at the beginning of a text, and the rest. -/
def takeNumber (width : ℕ) (text : List Char) : Option (ℕ × List Char) :=
  if (text.take width).length = width ∧ (text.take width).all isDigit then
    some (number (text.take width),text.drop width)
  else none

def takeAfter (mark : Char) (width : ℕ) : List Char → Option (ℕ × List Char)
  | [] => none
  | c :: text => if c = mark then takeNumber width text else none

def takeYear (text : List Char) : Option (ℤ × List Char) :=
  if text.head? = some '+' then (takeAfter '+' 6 text).map fun (year,rest) => (↑year,rest)
  else if text.head? = some '-' then (takeAfter '-' 6 text).bind fun (year,rest) =>
    if year = 0 then none else some (-↑year,rest)
  else (takeNumber 4 text).map fun (year,rest) => (↑year,rest)

def dayOf (year : ℤ) (month day : ℕ) : Option ℤ :=
  let date := ((year % 400).toNat,month,day)
  if IsDate date then some (dayNumber date+146097*(year/400)-719528) else none

def timeClip (ms : ℤ) : Option ℤ := if |ms| ≤ 8640000000000000 then some ms else none

/-- Seconds and milliseconds, as milliseconds. -/
def takeSeconds (text : List Char) : Option (ℕ × List Char) :=
  if text.head? = some ':' then (takeAfter ':' 2 text).bind fun (seconds,rest) =>
    if 60 ≤ seconds then none
    else if rest.head? = some '.' then
      (takeAfter '.' 3 rest).map fun (ms,rest) => (1000*seconds+ms,rest)
    else some (1000*seconds,rest)
  else some (0,text)

/-- The time of the day; a day may end at 24:00. -/
def takeTime (text : List Char) : Option (ℕ × List Char) := do
  let (hours,rest) ← takeAfter 'T' 2 text
  let (minutes,rest) ← takeAfter ':' 2 rest
  let (ms,rest) ← takeSeconds rest
  if minutes < 60 ∧ 3600000*hours+60000*minutes+ms ≤ 86400000 then
    some (3600000*hours+60000*minutes+ms,rest)
  else none

/-- The minutes of an offset from UTC: `Z`, or a sign with hours and minutes. -/
def utcOffset : List Char → Option ℤ
  | ['Z'] => some 0
  | [sign,h₁,h₂,':',m₁,m₂] =>
    if (sign = '+' ∨ sign = '-') ∧ [h₁,h₂,m₁,m₂].all isDigit ∧ number [h₁,h₂] < 24 ∧
        number [m₁,m₂] < 60 then
      some ((if sign = '-' then -1 else 1)*(60*number [h₁,h₂]+number [m₁,m₂]))
    else none
  | _ => none

/-- An offset of whole hours, without the minutes. -/
def hourOffset : List Char → Option ℤ
  | [sign,h₁,h₂] => utcOffset [sign,h₁,h₂,':','0','0']
  | _ => none

/-- The time of a date, a time of the day and an offset from UTC, in the extended format of
ISO 8601. -/
def parseInstant (offset : List Char → Option ℤ) (text : String) : Option ℤ := do
  let (year,rest) ← takeYear text.toList
  let (month,rest) ← takeAfter '-' 2 rest
  let (day,rest) ← takeAfter '-' 2 rest
  let (ms,rest) ← takeTime rest
  let minutes ← offset rest
  let days ← dayOf year month day
  timeClip (86400000*days+ms-60000*minutes)

/-- The date-time texts of the language, where they have an offset. -/
def parseISO (text : String) : Option ℤ := parseInstant utcOffset text

/-- An instant; the standard has offsets of whole hours besides. -/
def isoInstant (text : String) : Option ℤ :=
  parseInstant (fun rest => (utcOffset rest).or (hourOffset rest)) text

theorem takeNumber_padded {width n : ℕ} (h : n < 10^width) (rest : List Char) :
    takeNumber width (padded width n ++ rest) = some (n,rest) := by
  have htake : (padded width n ++ rest).take width = padded width n :=
    List.take_left' (length_padded width n)
  have hdrop : (padded width n ++ rest).drop width = rest := List.drop_left' (length_padded width n)
  unfold takeNumber
  rw [htake,hdrop,number_padded,Nat.mod_eq_of_lt h,if_pos ⟨length_padded _ _,all_isDigit_padded _ _⟩]

theorem takeAfter_padded {width n : ℕ} (h : n < 10^width) (mark : Char) (rest : List Char) :
    takeAfter mark width (mark :: (padded width n ++ rest)) = some (n,rest) := by
  rw [takeAfter,if_pos rfl,takeNumber_padded h]

theorem takeYear_isoYear {year : ℤ} (h : |year| < 1000000) (rest : List Char) :
    takeYear (isoYear year ++ rest) = some (year,rest) := by
  rw [abs_lt] at h
  unfold takeYear isoYear
  split
  · next hyear =>
    have hdigit : ∀ mark, isDigit mark = false →
        (padded 4 year.toNat ++ rest).head? ≠ some mark := by
      intro mark hmark heq
      rw [padded_succ,List.cons_append,List.head?_cons] at heq
      have := isDigit_digitChar (Nat.mod_lt (year.toNat/10^3) (show 10 > 0 by norm_num))
      rw [Option.some.inj heq,hmark] at this
      cases this
    rw [if_neg (hdigit '+' rfl),if_neg (hdigit '-' rfl),takeNumber_padded (by omega)]
    simp [hyear.1]
  · split
    · next hneg =>
      have hplus : ('-' :: padded 6 year.natAbs ++ rest).head? ≠ some '+' := by simp
      have hminus : ('-' :: padded 6 year.natAbs ++ rest).head? = some '-' := by simp
      rw [if_neg hplus,if_pos hminus,List.cons_append,takeAfter_padded (by omega)]
      simp [abs_of_neg hneg,hneg.ne]
    · next hpos =>
      have hplus : ('+' :: padded 6 year.natAbs ++ rest).head? = some '+' := by simp
      rw [if_pos hplus,List.cons_append,takeAfter_padded (by omega)]
      simp [abs_of_nonneg (not_lt.mp hpos)]

theorem dateOf_year_lt {n : ℕ} (h : n < 146097) : (dateOf n).1 < 400 := by
  by_contra hyear
  have hlt : ((399,12,31) : ℕ × ℕ × ℕ).1 < (dateOf n).1 := not_lt.mp hyear
  have hnumber := dayNumber_lt_of_year_lt (by decide) hlt
  rw [dayNumber_dateOf,show dayNumber (399,12,31) = 146096 by decide] at hnumber
  omega

theorem takeTime_isoTime (ms : ℤ) :
    takeTime (isoTime ms) = some ((ms % 86400000).toNat,['Z']) := by
  have hlist : isoTime ms = 'T' :: (padded 2 (ms/3600000 % 24).toNat ++
      ':' :: (padded 2 (ms/60000 % 60).toNat ++ ':' :: (padded 2 (ms/1000 % 60).toNat ++
        '.' :: (padded 3 (ms % 1000).toNat ++ ['Z'])))) := by
    rw [isoTime]
    simp only [List.append_assoc,List.cons_append]
  have hseconds : ¬ 60 ≤ (ms/1000 % 60).toNat := by omega
  have hsum : 3600000*(ms/3600000 % 24).toNat+60000*(ms/60000 % 60).toNat+
      (1000*(ms/1000 % 60).toNat+(ms % 1000).toNat) = (ms % 86400000).toNat := by omega
  have htake : takeSeconds (':' :: (padded 2 (ms/1000 % 60).toNat ++
      '.' :: (padded 3 (ms % 1000).toNat ++ ['Z']))) =
        some (1000*(ms/1000 % 60).toNat+(ms % 1000).toNat,['Z']) := by
    unfold takeSeconds
    rw [List.head?_cons,if_pos rfl,takeAfter_padded (by omega),Option.bind_some]
    dsimp only
    rw [if_neg hseconds,List.head?_cons,if_pos rfl,takeAfter_padded (by omega)]
    rfl
  unfold takeTime
  rw [hlist]
  simp only [Option.bind_eq_bind]
  rw [takeAfter_padded (by omega),Option.bind_some,takeAfter_padded (by omega),Option.bind_some,
    htake,Option.bind_some]
  dsimp only
  rw [hsum,if_pos ⟨by omega,by omega⟩]

theorem parseISO_toISOString {ms : ℤ} (h : |ms| ≤ 8640000000000000) :
    parseISO (toISOString ms) = some ms := by
  obtain ⟨r,hr,hn⟩ : ∃ r : ℕ, r < 146097 ∧ ms/86400000+719528 = r+146097*((ms/86400000+719528)/146097) :=
    ⟨((ms/86400000+719528) % 146097).toNat,by omega,by omega⟩
  have hmod : ((ms/86400000+719528) % 146097).toNat = r := by omega
  rw [abs_le] at h
  have hera : |((ms/86400000+719528)/146097 : ℤ)| ≤ 1000 := by rw [abs_le]; omega
  generalize hq : (ms/86400000+719528)/146097 = era at *
  have hyear := dateOf_year_lt hr
  have hdate := isDate_dateOf r
  have hnumber := dayNumber_dateOf r
  obtain ⟨hmonth,hday⟩ := hdate.lt_hundred
  have hiso : isoDate (ms/86400000) = isoYear ((dateOf r).1+400*era) ++
      '-' :: padded 2 (dateOf r).2.1 ++ '-' :: padded 2 (dateOf r).2.2 := by
    simp only [isoDate,hmod,hq]
  generalize dateOf r = date at *
  obtain ⟨y,m,d⟩ := date
  dsimp only at hyear hmonth hday hiso
  have hY : |(y : ℤ)+400*era| < 1000000 := by
    rw [abs_le] at hera
    rw [abs_lt]
    omega
  have hdayOf : dayOf ((y : ℤ)+400*era) m d = some (ms/86400000) := by
    have hy : (((y : ℤ)+400*era) % 400).toNat = y := by omega
    have hdiv : ((y : ℤ)+400*era)/400 = era := by omega
    simp only [dayOf,hy,hdiv,if_pos hdate,hnumber]
    congr 1
    omega
  have hlist : (toISOString ms).toList = isoYear ((y : ℤ)+400*era) ++ '-' :: (padded 2 m ++
      '-' :: (padded 2 d ++ isoTime ms)) := by
    rw [toList_toISOString,hiso]
    simp only [List.append_assoc,List.cons_append]
  have htime := takeTime_isoTime ms
  have hms : 86400000*(ms/86400000)+((ms % 86400000).toNat : ℤ)-60000*0 = ms := by omega
  unfold parseISO parseInstant
  rw [hlist,takeYear_isoYear hY]
  simp only [Option.bind_eq_bind,Option.bind_some]
  rw [takeAfter_padded (by omega),Option.bind_some,takeAfter_padded (by omega),Option.bind_some,
    htime,Option.bind_some]
  rw [show utcOffset ['Z'] = some 0 from rfl,Option.bind_some,hdayOf,Option.bind_some,hms,timeClip,if_pos (abs_le.mpr h)]

theorem abs_le_of_parseInstant {offset : List Char → Option ℤ} {text : String} {ms : ℤ}
    (h : parseInstant offset text = some ms) : |ms| ≤ 8640000000000000 := by
  unfold parseInstant at h
  simp only [Option.bind_eq_bind,Option.bind_eq_some_iff] at h
  obtain ⟨_,-,_,-,_,-,_,-,_,-,_,-,hclip⟩ := h
  unfold timeClip at hclip
  split at hclip
  · exact Option.some.inj hclip ▸ ‹_›
  · cases hclip

section Offsets

theorem utcOffset_digits {sign h₁ h₂ m₁ m₂ : Char} {minutes : ℤ}
    (h : utcOffset [sign,h₁,h₂,':',m₁,m₂] = some minutes) :
    (sign = '+' ∨ sign = '-') ∧ (isDigit h₁ = true ∧ isDigit h₂ = true) ∧
      isDigit m₁ = true ∧ isDigit m₂ = true := by
  rw [utcOffset] at h
  by_cases hwritten : (sign = '+' ∨ sign = '-') ∧ [h₁,h₂,m₁,m₂].all isDigit ∧
      number [h₁,h₂] < 24 ∧ number [m₁,m₂] < 60
  · obtain ⟨hsign,hdigits,-⟩ := hwritten
    simp only [List.all_cons,List.all_nil,Bool.and_true,Bool.and_eq_true] at hdigits
    exact ⟨hsign,⟨hdigits.1,hdigits.2.1⟩,hdigits.2.2⟩
  · rw [if_neg hwritten] at h
    cases h

theorem takeNumber_suffix {width : ℕ} {text : List Char} {x : ℕ × List Char}
    (h : takeNumber width text = some x) : x.2 <:+ text := by
  unfold takeNumber at h
  split at h
  · cases h
    exact List.drop_suffix _ _
  · cases h

theorem takeAfter_suffix {mark : Char} {width : ℕ} {text : List Char} {x : ℕ × List Char}
    (h : takeAfter mark width text = some x) : x.2 <:+ text := by
  cases text with
  | nil => cases h
  | cons c text =>
    dsimp only [takeAfter] at h
    split_ifs at h with hmark
    exact (takeNumber_suffix h).trans (List.suffix_cons c text)

theorem takeYear_suffix {text : List Char} {x : ℤ × List Char} (h : takeYear text = some x) :
    x.2 <:+ text := by
  unfold takeYear at h
  split at h
  · obtain ⟨y,hy,rfl⟩ := Option.map_eq_some_iff.mp h
    exact takeAfter_suffix hy
  · split at h
    · obtain ⟨⟨year,rest⟩,hy,hsign⟩ := Option.bind_eq_some_iff.mp h
      dsimp only at hsign
      split_ifs at hsign
      cases hsign
      exact takeAfter_suffix hy
    · obtain ⟨y,hy,rfl⟩ := Option.map_eq_some_iff.mp h
      exact takeNumber_suffix hy

theorem takeSeconds_suffix {text : List Char} {x : ℕ × List Char}
    (h : takeSeconds text = some x) : x.2 <:+ text := by
  unfold takeSeconds at h
  split at h
  · obtain ⟨⟨seconds,rest⟩,hy,hrest⟩ := Option.bind_eq_some_iff.mp h
    have hseconds := takeAfter_suffix hy
    dsimp only at hrest
    split_ifs at hrest
    · obtain ⟨z,hz,rfl⟩ := Option.map_eq_some_iff.mp hrest
      exact (takeAfter_suffix hz).trans hseconds
    · cases hrest
      exact hseconds
  · cases h
    exact List.suffix_rfl

theorem takeTime_suffix {text : List Char} {x : ℕ × List Char} (h : takeTime text = some x) :
    x.2 <:+ text := by
  unfold takeTime at h
  simp only [Option.bind_eq_bind,Option.bind_eq_some_iff] at h
  obtain ⟨hours,hhours,minutes,hminutes,seconds,hseconds,hin⟩ := h
  split at hin
  · cases hin
    exact (takeSeconds_suffix hseconds).trans ((takeAfter_suffix hminutes).trans
      (takeAfter_suffix hhours))
  · cases hin

/-- What has been read ends with its offset, and would be read with any other notation of the
same. -/
theorem parseInstant_offset {offset : List Char → Option ℤ} {text : String} {ms : ℤ}
    (h : parseInstant offset text = some ms) : ∃ rest minutes, rest <:+ text.toList ∧
      offset rest = some minutes ∧ ∀ offset' : List Char → Option ℤ,
        offset' rest = some minutes → parseInstant offset' text = some ms := by
  unfold parseInstant at h
  simp only [Option.bind_eq_bind,Option.bind_eq_some_iff] at h
  obtain ⟨year,hyear,month,hmonth,day,hday,time,htime,minutes,hminutes,days,hdays,hclip⟩ := h
  refine ⟨time.2,minutes,?_,hminutes,fun offset' hsame => ?_⟩
  · exact (takeTime_suffix htime).trans ((takeAfter_suffix hday).trans
      ((takeAfter_suffix hmonth).trans (takeYear_suffix hyear)))
  · simp only [parseInstant,hyear,hmonth,hday,htime,hsame,hdays,Option.bind_eq_bind,
      Option.bind_some,hclip]

/-- An instant is one of the language or has an offset of whole hours. -/
theorem parseISO_of_isoInstant {text : String} {ms : ℤ} (h : isoInstant text = some ms) :
    parseISO text = some ms ∨ ∃ rest minutes, rest <:+ text.toList ∧
      hourOffset rest = some minutes := by
  obtain ⟨rest,minutes,hsuffix,hminutes,hsame⟩ := parseInstant_offset h
  rcases Option.or_eq_some_iff.mp hminutes with hutc | ⟨-,hhours⟩
  · exact .inl (hsame _ hutc)
  · exact .inr ⟨rest,minutes,hsuffix,hhours⟩

end Offsets

end Reading

end Calendar
