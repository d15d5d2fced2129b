import Mathlib.Data.String.Basic
import Mathlib.Data.List.Sort
import YieldVault.Calendar

/-! The APY history of the last days. The nightly snapshots are kept under their dates, and a
day without one takes the value of the day before. -/
namespace YieldVault.Backend
open Calendar

structure ApySnapshot (A : Type*) where
  date : String
  apy : A

/-- The rows of the table, which has one for each date, and the snapshots in memory. -/
structure ApySnapshots (A : Type*) where
  table : List (ApySnapshot A)
  onConflict : (table.map ApySnapshot.date).Nodup
  snapshotStore : String → Option A

section Dates

def RETENTION_DAYS : ℤ := 365

def todayUtc (now : ℤ) : String := String.ofList ((toISOString now).toList.take 10)

/-- The day of ``new Date(`${date}T00:00:00Z`)``; none is an invalid date. -/
def utcDay (date : String) : Option ℤ :=
  (dateFields date.toList).bind fun fields =>
    if IsDate fields then some (dayNumber fields-719528) else none

def datePlusDays (date : String) (days : ℤ) : Option String :=
  (utcDay date).map fun day => todayUtc (86400000*(day+days))

def dateMinusDays (date : String) (days : ℤ) : Option String := datePlusDays date (-days)

def dayText (n : ℕ) : String := String.ofList (dateText (dateOf n))

theorem todayUtc_eq {n : ℕ} (hn : n < 3652425) {now : ℤ} (h : now/86400000 = n-719528) :
    todayUtc now = dayText n := by
  have hdate := isoDate_eq hn
  unfold todayUtc dayText
  rw [toList_toISOString,h,hdate,List.take_left' (length_dateText _)]

theorem utcDay_dayText {n : ℕ} (hn : n < 3652425) : utcDay (dayText n) = some ((n : ℤ)-719528) := by
  have hdate := isDate_dateOf n
  unfold utcDay dayText
  rw [String.toList_ofList,dateFields_dateText (dateOf_year_le hn) hdate,Option.bind_some,
    if_pos hdate,dayNumber_dateOf]

theorem datePlusDays_dayText {n m : ℕ} {days : ℤ} (hn : n < 3652425) (hm : m < 3652425)
    (h : (n : ℤ)+days = m) : datePlusDays (dayText n) days = some (dayText m) := by
  unfold datePlusDays
  rw [utcDay_dayText hn,Option.map_some,todayUtc_eq hm]
  omega

theorem dayText_lt {n n' : ℕ} (hn' : n' < 3652425) (h : n < n') : dayText n < dayText n' := by
  have hlt := dateText_dateOf_lt hn' h
  simpa only [dayText,String.lt_iff,String.toList_ofList] using hlt

theorem dayText_lt_iff {n n' : ℕ} (hn : n < 3652425) (hn' : n' < 3652425) :
    dayText n < dayText n' ↔ n < n' := by
  refine ⟨fun h => ?_,dayText_lt hn'⟩
  by_contra hle
  rcases (not_lt.mp hle).lt_or_eq with hlt | rfl
  · exact absurd (h.trans (dayText_lt hn hlt)) (lt_irrefl _)
  · exact lt_irrefl _ h

theorem dayText_inj {n n' : ℕ} (hn : n < 3652425) (hn' : n' < 3652425)
    (h : dayText n = dayText n') : n = n' := by
  rcases lt_trichotomy n n' with hlt | heq | hlt
  · exact absurd h (dayText_lt hn' hlt).ne
  · exact heq
  · exact absurd h.symm (dayText_lt hn hlt).ne

end Dates

section History

variable {A : Type*}

def selectBetween (first last : String) (table : List (ApySnapshot A)) : List (ApySnapshot A) :=
  (table.filter fun row => decide (first ≤ row.date ∧ row.date ≤ last)).insertionSort
    fun row row' => row.date ≤ row'.date

/-- The loop over the days, which ends within its fuel or with the error of an invalid date. -/
def fillGaps (snapshotStore : String → Option A) (today : String) :
    ℕ → String → Option A → List (ApySnapshot A) → Option (List (ApySnapshot A))
  | 0,_,_,_ => none
  | fuel+1,cursor,lastKnown,result =>
    if cursor ≤ today then
      let lastKnown := (snapshotStore cursor).or lastKnown
      let result := result ++ (lastKnown.map fun apy => ⟨cursor,apy⟩).toList
      (datePlusDays cursor 1).bind fun next => fillGaps snapshotStore today fuel next lastKnown result
    else some result

def mergeRows (rows : List (ApySnapshot A)) (snapshotStore : String → Option A) :
    String → Option A :=
  rows.foldl (fun snapshotStore row => Function.update snapshotStore row.date (some row.apy))
    snapshotStore

def getApyHistory (fuel : ℕ) (now days : ℤ) (snapshots : ApySnapshots A) :
    Option (List (ApySnapshot A) × ApySnapshots A) :=
  let clampedDays := min (max 1 days) RETENTION_DAYS
  let today := todayUtc now
  (dateMinusDays today (clampedDays-1)).bind fun first =>
    let snapshotStore := mergeRows (selectBetween first today snapshots.table) snapshots.snapshotStore
    (fillGaps snapshotStore today fuel first none []).map fun result =>
      (result,{ snapshots with snapshotStore })

theorem mem_selectBetween {first last : String} {table : List (ApySnapshot A)} {row : ApySnapshot A} :
    row ∈ selectBetween first last table ↔ row ∈ table ∧ first ≤ row.date ∧ row.date ≤ last := by
  unfold selectBetween
  rw [(List.perm_insertionSort _ _).mem_iff]
  simp

theorem nodup_selectBetween {first last : String} {table : List (ApySnapshot A)}
    (h : (table.map ApySnapshot.date).Nodup) :
    ((selectBetween first last table).map ApySnapshot.date).Nodup := by
  unfold selectBetween
  rw [((List.perm_insertionSort _ _).map _).nodup_iff]
  exact h.sublist (List.filter_sublist.map _)

theorem mergeRows_of_notMem {rows : List (ApySnapshot A)} {date : String}
    (h : ∀ row ∈ rows, row.date ≠ date) (snapshotStore : String → Option A) :
    mergeRows rows snapshotStore date = snapshotStore date := by
  induction rows generalizing snapshotStore with
  | nil => rfl
  | cons row rows ih =>
    obtain ⟨hrow,hrows⟩ := List.forall_mem_cons.mp h
    calc mergeRows (row :: rows) snapshotStore date
        = mergeRows rows (Function.update snapshotStore row.date (some row.apy)) date := rfl
      _ = Function.update snapshotStore row.date (some row.apy) date := ih hrows _
      _ = snapshotStore date := Function.update_of_ne hrow.symm _ _

theorem mergeRows_of_mem {rows : List (ApySnapshot A)} (hrows : (rows.map ApySnapshot.date).Nodup)
    {row : ApySnapshot A} (h : row ∈ rows) (snapshotStore : String → Option A) :
    mergeRows rows snapshotStore row.date = some row.apy := by
  induction rows generalizing snapshotStore with
  | nil => simp at h
  | cons first rows ih =>
    obtain ⟨hfirst,hrest⟩ := List.nodup_cons.mp hrows
    rcases List.mem_cons.mp h with rfl | hmem
    · have hne : ∀ other ∈ rows, other.date ≠ row.date :=
        fun other hother heq => hfirst (heq ▸ List.mem_map_of_mem hother)
      calc mergeRows (row :: rows) snapshotStore row.date
          = Function.update snapshotStore row.date (some row.apy) row.date := mergeRows_of_notMem hne _
        _ = some row.apy := Function.update_self _ _ _
    · exact ih hrest hmem _

end History

section Filling

variable {A : Type*}

def latestBefore (on : ℕ → Option A) : ℕ → Option A
  | 0 => none
  | day+1 => (on day).or (latestBefore on day)

/-- An entry with the latest snapshot for every day that has one, in the order of the days. -/
structure FillsGaps (on : ℕ → Option A) (first last : ℕ) (history : List (ApySnapshot A)) : Prop where
  ascending : history.Pairwise fun entry next => entry.date < next.date
  entries : ∀ entry, entry ∈ history ↔ ∃ day, first ≤ day ∧ day ≤ last ∧
    entry.date = dayText day ∧ latestBefore on (day+1) = some entry.apy

theorem latestBefore_eq_none_iff {on : ℕ → Option A} {n : ℕ} :
    latestBefore on n = none ↔ ∀ day < n, on day = none := by
  induction n with
  | zero => simp [latestBefore]
  | succ n ih =>
    simp only [latestBefore,Option.or_eq_none_iff,ih]
    exact ⟨fun ⟨hn,h⟩ day hday => (Nat.lt_succ_iff_lt_or_eq.mp hday).elim (h day) fun heq => heq ▸ hn,
      fun h => ⟨h n n.lt_succ_self,fun day hday => h day (hday.trans n.lt_succ_self)⟩⟩

def since (first : ℕ) (on : ℕ → Option A) (day : ℕ) : Option A :=
  if first ≤ day then on day else none

theorem latestBefore_since_first (on : ℕ → Option A) (first : ℕ) :
    latestBefore (since first on) first = none :=
  latestBefore_eq_none_iff.mpr fun _ hday => if_neg (not_le.mpr hday)

theorem latestBefore_since (first : ℕ) (on : ℕ → Option A) (n : ℕ) :
    latestBefore on (first+n) = (latestBefore (since first on) (first+n)).or (latestBefore on first) := by
  induction n with
  | zero =>
    rw [Nat.add_zero,latestBefore_since_first,Option.none_or]
  | succ n ih =>
    have hon : since first on (first+n) = on (first+n) := if_pos (Nat.le_add_right _ _)
    rw [← Nat.add_assoc,latestBefore,latestBefore,hon,ih,Option.or_assoc]

def carried (on : ℕ → Option A) : ℕ → ℕ → Option A → List (ApySnapshot A)
  | _,0,_ => []
  | n,k+1,lastKnown =>
    (((on n).or lastKnown).map fun apy => ⟨dayText n,apy⟩).toList ++
      carried on (n+1) k ((on n).or lastKnown)

theorem fillGaps_eq {snapshotStore : String → Option A} {last : ℕ} (hlast : last < 3652424)
    {k fuel : ℕ} (hfuel : k < fuel) {n : ℕ} (h : n+k = last+1) (lastKnown : Option A)
    (result : List (ApySnapshot A)) :
    fillGaps snapshotStore (dayText last) fuel (dayText n) lastKnown result =
      some (result ++ carried (fun day => snapshotStore (dayText day)) n k lastKnown) := by
  induction k generalizing fuel n lastKnown result with
  | zero =>
    obtain ⟨fuel,rfl⟩ := Nat.exists_eq_add_of_lt hfuel
    have hpast : ¬dayText n ≤ dayText last := not_le.mpr (dayText_lt (by omega) (by omega))
    simp only [fillGaps,if_neg hpast,carried,List.append_nil]
  | succ k ih =>
    obtain ⟨fuel,rfl⟩ := Nat.exists_eq_add_of_lt hfuel
    have hle : dayText n ≤ dayText last :=
      not_lt.mp fun hlt => absurd ((dayText_lt_iff (by omega) (by omega)).mp hlt) (by omega)
    have hnext : datePlusDays (dayText n) 1 = some (dayText (n+1)) :=
      datePlusDays_dayText (by omega) (by omega) (by push_cast; ring)
    simp only [fillGaps,if_pos hle,hnext,Option.bind_some]
    rw [ih (by omega) (by omega),carried,List.append_assoc]

theorem mem_carried {on : ℕ → Option A} {first n k : ℕ} (hn : first ≤ n) {entry : ApySnapshot A} :
    entry ∈ carried on n k (latestBefore (since first on) n) ↔ ∃ day, n ≤ day ∧ day < n+k ∧
      entry.date = dayText day ∧ latestBefore (since first on) (day+1) = some entry.apy := by
  induction k generalizing n with
  | zero =>
    simp only [carried,List.not_mem_nil,false_iff]
    rintro ⟨day,h₁,h₂,-⟩
    omega
  | succ k ih =>
    have hstep : (on n).or (latestBefore (since first on) n) = latestBefore (since first on) (n+1) := by
      rw [latestBefore,since,if_pos hn]
    rw [carried,hstep,List.mem_append,ih (hn.trans n.le_succ)]
    have hhere : entry ∈ ((latestBefore (since first on) (n+1)).map fun apy =>
        (⟨dayText n,apy⟩ : ApySnapshot A)).toList ↔
        entry.date = dayText n ∧ latestBefore (since first on) (n+1) = some entry.apy := by
      obtain ⟨date,apy⟩ := entry
      simp only [Option.mem_toList,Option.map_eq_some_iff,ApySnapshot.mk.injEq]
      exact ⟨fun ⟨a,ha,hdate,happy⟩ => ⟨hdate.symm,happy ▸ ha⟩,fun ⟨hdate,ha⟩ => ⟨apy,ha,hdate.symm,rfl⟩⟩
    rw [hhere]
    constructor
    · rintro (hentry | ⟨day,h₁,h₂,hentry⟩)
      · exact ⟨n,le_rfl,by omega,hentry⟩
      · exact ⟨day,by omega,by omega,hentry⟩
    · rintro ⟨day,h₁,h₂,hentry⟩
      rcases h₁.eq_or_lt with rfl | hlt
      · exact .inl hentry
      · exact .inr ⟨day,hlt,by omega,hentry⟩

theorem pairwise_carried {on : ℕ → Option A} {n k : ℕ} (h : n+k ≤ 3652425) (lastKnown : Option A) :
    (carried on n k lastKnown).Pairwise (fun entry next => entry.date < next.date) ∧
      ∀ entry ∈ carried on n k lastKnown, dayText n ≤ entry.date := by
  induction k generalizing n lastKnown with
  | zero => exact ⟨List.Pairwise.nil,fun entry hentry => absurd hentry List.not_mem_nil⟩
  | succ k ih =>
    obtain ⟨hrest,hfrom⟩ := ih (show n+1+k ≤ 3652425 by omega) ((on n).or lastKnown)
    have hfrom' : ∀ entry ∈ carried on (n+1) k ((on n).or lastKnown), dayText n < entry.date := by
      intro entry hentry
      cases k with
      | zero => simp [carried] at hentry
      | succ k => exact (dayText_lt (by omega) n.lt_succ_self).trans_le (hfrom entry hentry)
    rw [carried]
    generalize (on n).or lastKnown = known at *
    cases known with
    | none =>
      simp only [Option.map_none,Option.toList_none,List.nil_append]
      exact ⟨hrest,fun entry hentry => (hfrom' entry hentry).le⟩
    | some apy =>
      simp only [Option.map_some,Option.toList_some,List.singleton_append]
      exact ⟨List.pairwise_cons.mpr ⟨hfrom',hrest⟩,
        List.forall_mem_cons.mpr ⟨le_rfl,fun entry hentry => (hfrom' entry hentry).le⟩⟩

theorem carried_congr {on on' : ℕ → Option A} {n k : ℕ}
    (h : ∀ day, n ≤ day → day < n+k → on day = on' day) (lastKnown : Option A) :
    carried on n k lastKnown = carried on' n k lastKnown := by
  induction k generalizing n lastKnown with
  | zero => rfl
  | succ k ih =>
    rw [carried,carried,h n le_rfl (by omega),
      ih fun day h₁ h₂ => h day (n.le_succ.trans h₁) (by omega)]

theorem fillsGaps_carried (on : ℕ → Option A) {first k : ℕ} (h : first+k < 3652425) :
    FillsGaps (since first on) first (first+k) (carried on first (k+1) none) := by
  have hmem : ∀ entry, entry ∈ carried on first (k+1) (latestBefore (since first on) first) ↔ _ :=
    fun entry => mem_carried le_rfl
  rw [latestBefore_since_first] at hmem
  refine ⟨(pairwise_carried (by omega) none).1,fun entry => (hmem entry).trans ?_⟩
  refine exists_congr fun day => and_congr_right fun _ => and_congr_left fun _ => ?_
  omega

/-- Where the snapshots before the window are left out, the first day decides. -/
theorem latestBefore_since_eq_iff {on : ℕ → Option A} {first last : ℕ} (hle : first ≤ last) :
    (∀ day, first ≤ day → day ≤ last →
        latestBefore (since first on) (day+1) = latestBefore on (day+1)) ↔
      on first ≠ none ∨ ∀ day < first, on day = none := by
  have hfirst : latestBefore (since first on) (first+1) = on first := by
    rw [latestBefore,latestBefore_since_first,Option.or_none,since,if_pos le_rfl]
  constructor
  · intro h
    by_contra hcond
    rw [not_or,not_not] at hcond
    obtain ⟨hon,hbefore⟩ := hcond
    have hday := h first le_rfl hle
    rw [hfirst,latestBefore,hon,Option.none_or] at hday
    exact hbefore (latestBefore_eq_none_iff.mp hday.symm)
  · intro hcond day hday _
    obtain ⟨n,rfl⟩ := Nat.exists_eq_add_of_le hday
    rw [Nat.add_assoc,latestBefore_since first on (n+1)]
    rcases hcond with hon | hbefore
    · obtain ⟨apy,hon⟩ := Option.ne_none_iff_exists'.mp hon
      have hsome : latestBefore (since first on) (first+(n+1)) ≠ none := by
        intro hnone
        have := latestBefore_eq_none_iff.mp hnone first (by omega)
        rw [since,if_pos le_rfl,hon] at this
        cases this
      obtain ⟨value,hvalue⟩ := Option.ne_none_iff_exists'.mp hsome
      rw [hvalue,Option.some_or]
    · rw [latestBefore_eq_none_iff.mpr hbefore,Option.or_none]

theorem FillsGaps.iff_latest {on on' : ℕ → Option A} {first last : ℕ} (hlast : last < 3652425)
    {history : List (ApySnapshot A)} (h : FillsGaps on first last history) :
    FillsGaps on' first last history ↔ ∀ day, first ≤ day → day ≤ last →
      latestBefore on (day+1) = latestBefore on' (day+1) := by
  constructor
  · intro h' day h₁ h₂
    have hsame : ∀ apy, latestBefore on (day+1) = some apy ↔ latestBefore on' (day+1) = some apy := by
      intro apy
      have hentry : ∀ {f : ℕ → Option A}, (∃ other, first ≤ other ∧ other ≤ last ∧
          dayText day = dayText other ∧ latestBefore f (other+1) = some apy) ↔
          latestBefore f (day+1) = some apy := by
        intro f
        constructor
        · rintro ⟨other,_,hother,htext,hf⟩
          rwa [dayText_inj (by omega) (by omega) htext]
        · exact fun hf => ⟨day,h₁,h₂,rfl,hf⟩
      exact hentry.symm.trans (((h.entries ⟨dayText day,apy⟩).symm.trans
        (h'.entries ⟨dayText day,apy⟩)).trans hentry)
    exact Option.ext hsame
  · intro heq
    refine ⟨h.ascending,fun entry => (h.entries entry).trans ?_⟩
    refine exists_congr fun day => and_congr_right fun h₁ => and_congr_right fun h₂ => ?_
    rw [heq day h₁ h₂]

end Filling

section Window

variable {A : Type*} (snapshots : ApySnapshots A)

/-- The snapshot of a day: the table's if it has one. -/
def ApySnapshots.on (day : ℕ) : Option A :=
  mergeRows snapshots.table snapshots.snapshotStore (dayText day)

def lastDay (now : ℕ) : ℕ := now/86400000+719528

def firstDay (now : ℕ) (days : ℤ) : ℕ :=
  lastDay now-(min (max 1 days) RETENTION_DAYS-1).toNat

theorem mergeRows_select_eq {first last day : ℕ} (h₁ : first ≤ day) (h₂ : day ≤ last)
    (hlast : last < 3652425) :
    mergeRows (selectBetween (dayText first) (dayText last) snapshots.table)
      snapshots.snapshotStore (dayText day) = snapshots.on day := by
  have hbetween : dayText first ≤ dayText day ∧ dayText day ≤ dayText last :=
    ⟨not_lt.mp fun hlt => absurd ((dayText_lt_iff (by omega) (by omega)).mp hlt) (by omega),
      not_lt.mp fun hlt => absurd ((dayText_lt_iff (by omega) (by omega)).mp hlt) (by omega)⟩
  unfold ApySnapshots.on
  by_cases hrow : ∃ row ∈ snapshots.table, row.date = dayText day
  · obtain ⟨row,hmem,hdate⟩ := hrow
    rw [← hdate] at hbetween ⊢
    rw [mergeRows_of_mem snapshots.onConflict hmem,
      mergeRows_of_mem (nodup_selectBetween snapshots.onConflict) (mem_selectBetween.mpr ⟨hmem,hbetween⟩)]
  · have hnone : ∀ row ∈ snapshots.table, row.date ≠ dayText day :=
      fun row hmem hdate => hrow ⟨row,hmem,hdate⟩
    rw [mergeRows_of_notMem hnone,
      mergeRows_of_notMem fun row hmem => hnone row (mem_selectBetween.mp hmem).1]

/-- Every call returns, with the gaps filled from the snapshots of the window alone. -/
theorem getApyHistory_returns {now : ℕ} (hnow : now < 253402214400000) (days : ℤ) {fuel : ℕ}
    (hfuel : 365 < fuel) :
    ∃ history after, getApyHistory fuel now days snapshots = some (history,after) ∧
      FillsGaps (since (firstDay now days) snapshots.on) (firstDay now days) (lastDay now) history := by
  have hlast : lastDay now < 3652424 := by unfold lastDay; omega
  have htoday : todayUtc now = dayText (lastDay now) :=
    todayUtc_eq (hlast.trans (by norm_num)) (by unfold lastDay; push_cast; ring)
  obtain ⟨k,hk,hkle⟩ : ∃ k : ℕ, min (max 1 days) RETENTION_DAYS-1 = k ∧ k ≤ 364 :=
    ⟨(min (max 1 days) RETENTION_DAYS-1).toNat,by unfold RETENTION_DAYS; omega,by
      unfold RETENTION_DAYS; omega⟩
  have hfirst : firstDay now days+k = lastDay now := by
    unfold firstDay lastDay
    rw [hk]
    omega
  have hminus : dateMinusDays (dayText (lastDay now)) k = some (dayText (firstDay now days)) :=
    datePlusDays_dayText (by omega) (by omega) (by omega)
  generalize firstDay now days = first at *
  have hloop := @fillGaps_eq _ (mergeRows (selectBetween (dayText first)
    (dayText (lastDay now)) snapshots.table) snapshots.snapshotStore) _ hlast _ _
    (show k+1 < fuel by omega) _ (show first+(k+1) = lastDay now+1 by omega) none []
  rw [List.nil_append,carried_congr fun day h₁ h₂ =>
    mergeRows_select_eq snapshots h₁ (by omega) (by omega)] at hloop
  have hrun : ∃ after, getApyHistory fuel now days snapshots =
      some (carried snapshots.on first (k+1) none,after) := by
    simp only [getApyHistory,htoday,hk,hminus,Option.bind_some,hloop,Option.map_some]
    exact ⟨_,rfl⟩
  obtain ⟨after,hrun⟩ := hrun
  exact ⟨_,after,hrun,hfirst ▸ fillsGaps_carried snapshots.on (by omega)⟩

/-- The history is filled exactly if the window begins with a snapshot, or nothing is known
from before it. -/
theorem getApyHistory_fillsGaps_iff {now : ℕ} (hnow : now < 253402214400000) (days : ℤ) {fuel : ℕ}
    (hfuel : 365 < fuel) :
    ∃ history after, getApyHistory fuel now days snapshots = some (history,after) ∧
      (FillsGaps snapshots.on (firstDay now days) (lastDay now) history ↔
        snapshots.on (firstDay now days) ≠ none ∨
          ∀ day < firstDay now days, snapshots.on day = none) := by
  obtain ⟨history,after,hrun,hfills⟩ := getApyHistory_returns snapshots hnow days hfuel
  refine ⟨history,after,hrun,?_⟩
  rw [hfills.iff_latest (by unfold lastDay; omega)]
  exact latestBefore_since_eq_iff (Nat.sub_le _ _)

def oneOldRow : ApySnapshots ℕ where
  table := [⟨"2024-01-07",8⟩]
  onConflict := List.nodup_singleton _
  snapshotStore := fun _ => none

theorem oneOldRow_on (day : ℕ) :
    oneOldRow.on day = if dayText day = "2024-01-07" then some 8 else none := by
  split
  · next hdate =>
    have hrow := mergeRows_of_mem oneOldRow.onConflict List.mem_cons_self oneOldRow.snapshotStore
    rw [ApySnapshots.on,hdate]
    exact hrow
  · next hdate =>
    exact mergeRows_of_notMem (fun row hrow => by
      obtain rfl := List.mem_singleton.mp hrow
      exact fun heq => hdate heq.symm) _

theorem getApyHistory_fillsGaps_iff_oneOldRow :
    ∃ history after, getApyHistory 366 (1704844800000 : ℕ) 4 oneOldRow = some (history,after) ∧
      (FillsGaps oneOldRow.on (firstDay 1704844800000 4) (lastDay 1704844800000) history ↔
        oneOldRow.on (firstDay 1704844800000 4) ≠ none ∨
          ∀ day < firstDay 1704844800000 4, oneOldRow.on day = none) :=
  getApyHistory_fillsGaps_iff oneOldRow (by norm_num) 4 (by norm_num)

/-- On the 10th, the last three days have no entry, although the value of the 7th is known. -/
theorem getApyHistory_oneOldRow : ¬∃ history after,
    getApyHistory 366 (1704844800000 : ℕ) 3 oneOldRow = some (history,after) ∧
      FillsGaps oneOldRow.on (firstDay 1704844800000 3) (lastDay 1704844800000) history := by
  rintro ⟨history,after,hhistory,hfills⟩
  obtain ⟨history',after',hrun,hfills'⟩ :=
    getApyHistory_returns oneOldRow (show 1704844800000 < 253402214400000 by norm_num) 3
      (show 365 < 366 by norm_num)
  obtain ⟨rfl,-⟩ := Prod.ext_iff.mp (Option.some.inj (hhistory.symm.trans hrun))
  have hlatest := (hfills'.iff_latest (by decide)).mp hfills
  have hfirst : firstDay 1704844800000 3 = 739258 := by decide
  have hlast : lastDay 1704844800000 = 739260 := by decide
  rw [hfirst,hlast] at hlatest
  rcases (latestBefore_since_eq_iff (by norm_num)).mp hlatest with hsome | hnone
  · rw [oneOldRow_on,if_neg (by decide)] at hsome
    exact hsome rfl
  · have hold := hnone 739257 (by norm_num)
    rw [oneOldRow_on,if_pos (by decide)] at hold
    cases hold

end Window

end YieldVault.Backend
