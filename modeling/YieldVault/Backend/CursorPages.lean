import YieldVault.Chunks
import Mathlib.Tactic

/-! Pages of a list in memory, found by the cursor of the item before them. -/
namespace YieldVault.Backend

/-- What a list endpoint is asked for; a limit or page of zero counts as none. -/
structure PaginationQuery where
  limit : Option ℕ := none
  cursor : Option String := none
  page : Option ℤ := none

structure PaginationMeta where
  count : ℕ
  limit : ℕ
  total : Option ℕ := none
  nextCursor : Option String := none
  prevCursor : Option String := none
  currentPage : Option ℤ := none
  totalPages : Option ℕ := none
  hasNextPage : Bool
  hasPrevPage : Bool

structure CursorPage (T : Type*) where
  data : List T
  pagination : PaginationMeta

def defaultLimit : ℕ := 20

def PaginationQuery.size (query : PaginationQuery) : ℕ :=
  (query.limit.filter (· ≠ 0)).getD defaultLimit

def PaginationQuery.askedPage (query : PaginationQuery) : Option ℤ := query.page.filter (· ≠ 0)

def PaginationQuery.pageStart (query : PaginationQuery) : ℕ :=
  match query.askedPage with
  | some page => if 0 < page then ((page-1)*query.size).toNat else 0
  | none => 0

def PaginationQuery.totalPages (query : PaginationQuery) (length : ℕ) : Option ℕ :=
  query.askedPage.map fun _ => max 1 ((length+query.size-1)/query.size)

section Pages

variable {T : Type*} (items : List T) (getCursor : T → String)

/-- The page from an index on. One item more than the limit is read, to see if there is one. -/
def pageAt (query : PaginationQuery) (startIndex : ℕ) : CursorPage T :=
  let limit := query.size
  let pageItems := (items.drop startIndex).take (limit+1)
  let hasMore := decide (limit < pageItems.length)
  let data := if hasMore then pageItems.take limit else pageItems
  ⟨data,
    { count := data.length
      limit := limit
      total := some items.length
      nextCursor := if hasMore then data.getLast?.map getCursor else none
      prevCursor := if 0 < startIndex ∧ 0 < data.length then
        items[startIndex-limit-1]?.map getCursor else none
      currentPage := query.askedPage
      totalPages := query.totalPages items.length
      hasNextPage := hasMore
      hasPrevPage := decide (0 < startIndex) }⟩

/-- The page behind the item that the cursor names; an empty cursor is none. -/
def paginateWithCursor (query : PaginationQuery) : CursorPage T :=
  match query.cursor.filter (· ≠ "") with
  | none => pageAt items getCursor query query.pageStart
  | some cursor => match items.findIdx? fun item => getCursor item = cursor with
    | some cursorIndex => pageAt items getCursor query (cursorIndex+1)
    | none => ⟨[],
        { count := 0
          limit := query.size
          total := query.askedPage.map fun _ => items.length
          currentPage := query.askedPage.map (max 1)
          totalPages := query.totalPages items.length
          hasNextPage := false
          hasPrevPage := false }⟩

def cursorPage (limit : ℕ) (cursor : Option String) : CursorPage T :=
  paginateWithCursor items getCursor ⟨some limit,cursor,none⟩

example : (cursorPage ["a","b","c"] id 2 none).pagination.nextCursor = some "b" ∧
    (cursorPage ["a","b","c"] id 2 (some "b")).data = ["c"] := by decide

/-- A page to which a client comes from the first one by the cursors of the pages it has got. -/
inductive Visited (limit : ℕ) : CursorPage T → Prop
  | first : Visited limit (cursorPage items getCursor limit none)
  | next {page : CursorPage T} {c : String} (h : Visited limit page)
      (hc : page.pagination.nextCursor = some c) :
      Visited limit (cursorPage items getCursor limit (some c))
  | prev {page : CursorPage T} {c : String} (h : Visited limit page)
      (hc : page.pagination.prevCursor = some c) :
      Visited limit (cursorPage items getCursor limit (some c))

def Answers (limit : ℕ) (cursor : Option String) (data : List T) (next : Option String) : Prop :=
  (cursorPage items getCursor limit cursor).data = data ∧
    (cursorPage items getCursor limit cursor).pagination.nextCursor = next

/-- The page lies in the list where its flags say. -/
def Placed (page : CursorPage T) : Prop :=
  ∃ before after, items = before ++ page.data ++ after ∧
    (page.pagination.hasPrevPage = true ↔ before ≠ []) ∧
    (page.pagination.hasNextPage = true ↔ after ≠ [])

/-- The next page's cursor for the previous one leads back. -/
def Returns (limit : ℕ) (page : CursorPage T) : Prop :=
  ∀ c, page.pagination.nextCursor = some c →
    ∃ d, (cursorPage items getCursor limit (some c)).pagination.prevCursor = some d ∧
      (cursorPage items getCursor limit (some d)).data = page.data

structure Coherent (limit : ℕ) : Prop where
  traversed : ∃ chunks, Chunks.Traversal (Answers items getCursor limit) none chunks ∧
    chunks.flatten = items
  placed : ∀ page, Visited items getCursor limit page → Placed items page
  returns : ∀ page, Visited items getCursor limit page → Returns items getCursor limit page

end Pages

section Positions

variable {T : Type*} {items : List T} {getCursor : T → String} {limit start : ℕ}

def pageFrom (items : List T) (getCursor : T → String) (limit start : ℕ) : CursorPage T :=
  pageAt items getCursor ⟨some limit,none,none⟩ start

theorem size_some (hlimit : 0 < limit) :
    (PaginationQuery.mk (some limit) none none).size = limit := by
  simp [PaginationQuery.size,Option.filter,hlimit.ne']

theorem pageFrom_data (hlimit : 0 < limit) :
    (pageFrom items getCursor limit start).data = Chunks.chunk items limit start := by
  simp only [pageFrom,pageAt,size_some hlimit,decide_eq_true_eq,Chunks.more_iff]
  exact Chunks.chunk_of_more

theorem pageFrom_hasNextPage (hlimit : 0 < limit) :
    (pageFrom items getCursor limit start).pagination.hasNextPage = true ↔
      start+limit < items.length := by
  simp only [pageFrom,pageAt,size_some hlimit,decide_eq_true_eq]
  exact Chunks.more_iff

theorem pageFrom_hasPrevPage :
    (pageFrom items getCursor limit start).pagination.hasPrevPage = true ↔ 0 < start := by
  simp [pageFrom,pageAt]

theorem pageFrom_nextCursor (hlimit : 0 < limit) :
    (pageFrom items getCursor limit start).pagination.nextCursor =
      Chunks.next items limit getCursor start := by
  have hmore := @pageFrom_hasNextPage T items getCursor limit start hlimit
  rw [← Chunks.next_of_chunk hlimit,← @pageFrom_data T items getCursor limit start hlimit]
  simp only [← hmore]
  rfl

theorem pageFrom_prevCursor (hlimit : 0 < limit) :
    (pageFrom items getCursor limit start).pagination.prevCursor =
      if 0 < start ∧ start < items.length then items[start-limit-1]?.map getCursor else none := by
  have hdata := @pageFrom_data T items getCursor limit start hlimit
  change (if 0 < start ∧ 0 < (pageFrom items getCursor limit start).data.length then
    items[start-(PaginationQuery.mk (some limit) none none).size-1]?.map getCursor else none) = _
  rw [hdata,size_some hlimit,Chunks.chunk]
  have hlength : 0 < ((items.drop start).take limit).length ↔ start < items.length := by
    simp
    omega
  simp only [hlength]

theorem cursorPage_none : cursorPage items getCursor limit none = pageFrom items getCursor limit 0 :=
  rfl

theorem cursorPage_empty :
    cursorPage items getCursor limit (some "") = pageFrom items getCursor limit 0 := rfl

theorem index_unique (hunique : (items.map getCursor).Nodup) {i j : ℕ} {a b : T}
    (hi : items[i]? = some a) (hj : items[j]? = some b) (he : getCursor a = getCursor b) : i = j := by
  have hlt : i < (items.map getCursor).length := by
    rw [List.length_map]
    exact (List.getElem?_eq_some_iff.mp hi).1
  refine (List.getElem?_inj hlt hunique).mp ?_
  rw [List.getElem?_map,List.getElem?_map,hi,hj,Option.map_some,Option.map_some,he]

theorem cursorPage_index (hunique : (items.map getCursor).Nodup) {i : ℕ} {item : T}
    (hi : items[i]? = some item) (hne : getCursor item ≠ "") :
    cursorPage items getCursor limit (some (getCursor item)) =
      pageFrom items getCursor limit (i+1) := by
  have hfind : items.findIdx? (fun other => getCursor other = getCursor item) = some i := by
    obtain ⟨hlt,rfl⟩ := List.getElem?_eq_some_iff.mp hi
    refine List.findIdx?_eq_some_iff_getElem.mpr ⟨hlt,by simp,fun j hj => ?_⟩
    rw [decide_eq_true_eq]
    exact fun he => hj.ne (index_unique hunique (List.getElem?_eq_getElem _) hi he)
  simp only [cursorPage,paginateWithCursor,Option.filter,decide_eq_true hne,if_true,hfind]
  rfl

theorem cursorPage_item (limit : ℕ) (hunique : (items.map getCursor).Nodup) {i : ℕ} {item : T}
    (hi : items[i]? = some item) :
    ∃ start ≤ i+1, cursorPage items getCursor limit (some (getCursor item)) =
      pageFrom items getCursor limit start := by
  by_cases hne : getCursor item = ""
  · exact ⟨0,Nat.zero_le _,by rw [hne,cursorPage_empty]⟩
  · exact ⟨i+1,le_rfl,cursorPage_index hunique hi hne⟩

theorem visited_start (hunique : (items.map getCursor).Nodup) (hlimit : 0 < limit)
    {page : CursorPage T} (h : Visited items getCursor limit page) :
    ∃ start, page = pageFrom items getCursor limit start ∧ (start < items.length ∨ start = 0) := by
  induction h with
  | first => exact ⟨0,cursorPage_none,Or.inr rfl⟩
  | next _ hc ih =>
    obtain ⟨start,rfl,-⟩ := ih
    rw [pageFrom_nextCursor hlimit] at hc
    obtain ⟨hlt,item,hitem,rfl⟩ := Chunks.next_eq_some.mp hc
    obtain ⟨start',hle,hpage⟩ := cursorPage_item limit hunique hitem
    exact ⟨start',hpage,by omega⟩
  | prev _ hc ih =>
    obtain ⟨start,rfl,-⟩ := ih
    rw [pageFrom_prevCursor hlimit] at hc
    split_ifs at hc with h
    obtain ⟨item,hitem,rfl⟩ := Option.map_eq_some_iff.mp hc
    obtain ⟨start',hle,hpage⟩ := cursorPage_item limit hunique hitem
    exact ⟨start',hpage,by omega⟩

theorem visited_placed (hunique : (items.map getCursor).Nodup) (hlimit : 0 < limit)
    {page : CursorPage T} (h : Visited items getCursor limit page) : Placed items page := by
  obtain ⟨start,rfl,hstart⟩ := visited_start hunique hlimit h
  refine ⟨items.take start,items.drop (start+limit),?_,?_,?_⟩
  · rw [pageFrom_data hlimit,List.append_assoc,Chunks.chunk_append,List.take_append_drop]
  · rw [pageFrom_hasPrevPage,ne_eq,List.take_eq_nil_iff]
    rcases hstart with hlt | rfl
    · have hne : items ≠ [] := List.ne_nil_of_length_pos (by omega)
      simp [hne,Nat.pos_iff_ne_zero]
    · simp
  · rw [pageFrom_hasNextPage hlimit,ne_eq,List.drop_eq_nil_iff]
    omega

def position (items : List T) (getCursor : T → String) : Option String → ℕ
  | none => 0
  | some c => if c = "" then 0 else (items.map getCursor).idxOf c+1

theorem position_item (hunique : (items.map getCursor).Nodup) {i : ℕ} {item : T}
    (hi : items[i]? = some item) (hne : getCursor item ≠ "") :
    position items getCursor (some (getCursor item)) = i+1 := by
  obtain ⟨hlt,rfl⟩ := List.getElem?_eq_some_iff.mp hi
  have hlt' : i < (items.map getCursor).length := by rwa [List.length_map]
  have hindex := hunique.idxOf_getElem i hlt'
  rw [List.getElem_map] at hindex
  rw [position,if_neg hne,hindex]

theorem cursorPage_position (hunique : (items.map getCursor).Nodup) {cursor : Option String}
    (hcursor : ∀ c ∈ cursor, c ∈ items.map getCursor) :
    cursorPage items getCursor limit cursor =
      pageFrom items getCursor limit (position items getCursor cursor) := by
  cases cursor with
  | none => rfl
  | some c =>
    obtain ⟨i,hi⟩ := List.mem_iff_getElem?.mp (hcursor c rfl)
    rw [List.getElem?_map] at hi
    obtain ⟨item,hitem,rfl⟩ := Option.map_eq_some_iff.mp hi
    rw [position]
    split_ifs with hempty
    · rw [hempty,cursorPage_empty]
    · rw [cursorPage_index hunique hitem hempty,← position_item hunique hitem hempty,position,
        if_neg hempty]

theorem answers_chunked (hunique : (items.map getCursor).Nodup) (hlimit : 0 < limit) :
    Chunks.Chunked (Answers items getCursor limit) items limit getCursor
      (position items getCursor) where
  limit_pos := hlimit
  start := rfl
  answers_iff hcursor := by
    rw [Answers,cursorPage_position hunique hcursor,pageFrom_data hlimit,
      pageFrom_nextCursor hlimit,eq_comm,@eq_comm (Option String)]

/-- Unless an empty cursor stands at the end of a page, all pages together are the list. -/
theorem pages_traverse (hunique : (items.map getCursor).Nodup) (hlimit : 0 < limit)
    (hne : ∀ k item, k*limit < items.length → items[k*limit-1]? = some item → 0 < k →
      getCursor item ≠ "") :
    ∃ chunks, Chunks.Traversal (Answers items getCursor limit) none chunks ∧
      chunks.flatten = items := by
  have hlined : Chunks.Lined items limit getCursor (position items getCursor) := by
    intro k item hk hitem h0
    have hpos := Nat.mul_pos h0 hlimit
    rw [position_item hunique hitem (hne k item hk hitem h0)]
    omega
  exact (answers_chunked hunique hlimit).whole_traversal hlined

theorem pageFrom_returns (hunique : (items.map getCursor).Nodup) (hlimit : 0 < limit)
    (hend : ∀ item, items[start+limit-1]? = some item → getCursor item ≠ "")
    (hbefore : ∀ item, items[start-1]? = some item → (getCursor item = "" ↔ start = 0)) :
    Returns items getCursor limit (pageFrom items getCursor limit start) := by
  intro c hc
  rw [pageFrom_nextCursor hlimit] at hc
  obtain ⟨hlt,item,hitem,rfl⟩ := Chunks.next_eq_some.mp hc
  have hsucc : start+limit-1+1 = start+limit := by omega
  have hget : start+limit-limit-1 = start-1 := by omega
  obtain ⟨back,hback⟩ : ∃ back, items[start-1]? = some back :=
    ⟨_,List.getElem?_eq_getElem (by omega)⟩
  refine ⟨getCursor back,?_,?_⟩
  · rw [cursorPage_index hunique hitem (hend item hitem),hsucc,pageFrom_prevCursor hlimit,
      if_pos ⟨by omega,hlt⟩,hget,hback,Option.map_some]
  · by_cases h0 : start = 0
    · rw [(hbefore back hback).mpr h0,h0,cursorPage_empty]
    · have hne : getCursor back ≠ "" := fun he => h0 ((hbefore back hback).mp he)
      rw [cursorPage_index hunique hback hne,Nat.sub_add_cancel (Nat.pos_of_ne_zero h0)]

/-- With an empty cursor at its end the first page comes again and again. -/
theorem first_repeats
    (hc : (pageFrom items getCursor limit 0).pagination.nextCursor = some "")
    {cursor : Option String} {chunks : List (List T)}
    (ht : Chunks.Traversal (Answers items getCursor limit) cursor chunks) :
    ¬ (cursor = none ∨ cursor = some "") := by
  refine ht.not_closed (K := fun c => c = none ∨ c = some "") fun hs h => ?_
  rcases hs with rfl | rfl
  · rw [← h.2,cursorPage_none,hc]
    exact ⟨by simp,Or.inr rfl⟩
  · rw [← h.2,cursorPage_empty,hc]
    exact ⟨by simp,Or.inr rfl⟩

end Positions

/-- Without empty cursors the pages are the list, and every page but the first one is come
back to. -/
theorem cursorPages_forward {T : Type*} {items : List T} {getCursor : T → String} {limit : ℕ}
    (hunique : (items.map getCursor).Nodup) (hlimit : 0 < limit)
    (hne : ∀ item ∈ items, getCursor item ≠ "") :
    (∃ chunks, Chunks.Traversal (Answers items getCursor limit) none chunks ∧
        chunks.flatten = items) ∧
      ∀ page, Visited items getCursor limit page → Placed items page ∧
        (page.pagination.hasPrevPage = true → Returns items getCursor limit page) := by
  have hitem : ∀ {i : ℕ} {item : T}, items[i]? = some item → getCursor item ≠ "" :=
    fun h => hne _ (List.mem_of_getElem? h)
  refine ⟨pages_traverse hunique hlimit fun k item _ h _ => hitem h,fun page h => ?_⟩
  refine ⟨visited_placed hunique hlimit h,fun hprev => ?_⟩
  obtain ⟨start,rfl,-⟩ := visited_start hunique hlimit h
  rw [pageFrom_hasPrevPage] at hprev
  exact pageFrom_returns hunique hlimit (fun _ h => hitem h)
    fun _ h => ⟨fun he => absurd he (hitem h),fun h0 => absurd h0 hprev.ne'⟩

section Coherence

variable {T : Type*} {items : List T} {getCursor : T → String} {limit : ℕ}

theorem visited_start_ne_one (hunique : (items.map getCursor).Nodup) (hlimit : 2 ≤ limit)
    (hhead : ∀ item, items[0]? = some item → getCursor item = "") {page : CursorPage T}
    (h : Visited items getCursor limit page) :
    ∃ start, page = pageFrom items getCursor limit start ∧ start ≠ 1 := by
  have hpos : 0 < limit := by omega
  have hitem : ∀ {i : ℕ} {item : T}, items[i]? = some item →
      ∃ start, cursorPage items getCursor limit (some (getCursor item)) =
        pageFrom items getCursor limit start ∧ start ≠ 1 := by
    intro i item hi
    by_cases hne : getCursor item = ""
    · exact ⟨0,by rw [hne,cursorPage_empty],by omega⟩
    · refine ⟨i+1,cursorPage_index hunique hi hne,fun he => hne (hhead item ?_)⟩
      rwa [show i = 0 by omega] at hi
  induction h with
  | first => exact ⟨0,cursorPage_none,by omega⟩
  | next _ hc ih =>
    obtain ⟨start,rfl,-⟩ := ih
    rw [pageFrom_nextCursor hpos] at hc
    obtain ⟨-,item,hi,rfl⟩ := Chunks.next_eq_some.mp hc
    exact hitem hi
  | prev _ hc ih =>
    obtain ⟨start,rfl,-⟩ := ih
    rw [pageFrom_prevCursor hpos] at hc
    split_ifs at hc with h
    obtain ⟨item,hi,rfl⟩ := Option.map_eq_some_iff.mp hc
    exact hitem hi

theorem coherent_of_short (hunique : (items.map getCursor).Nodup) (hlimit : 0 < limit)
    (hshort : items.length ≤ limit) : Coherent items getCursor limit where
  traversed := pages_traverse hunique hlimit fun k item hk _ h0 => by
    have hle := Nat.le_mul_of_pos_left limit h0
    omega
  placed page h := visited_placed hunique hlimit h
  returns page h := by
    obtain ⟨start,rfl,-⟩ := visited_start hunique hlimit h
    intro c hc
    rw [pageFrom_nextCursor hlimit] at hc
    obtain ⟨hlt,-⟩ := Chunks.next_eq_some.mp hc
    omega

theorem coherent_of_empty (hunique : (items.map getCursor).Nodup) (hlimit : 2 ≤ limit)
    (hhead : ∀ item, items[0]? = some item → getCursor item = "") :
    Coherent items getCursor limit := by
  have hpos : 0 < limit := by omega
  have hne : ∀ {i : ℕ} {item : T}, items[i]? = some item → 0 < i → getCursor item ≠ "" := by
    intro i item hi h0 hempty
    obtain ⟨first,hfirst⟩ : ∃ first, items[0]? = some first :=
      ⟨_,List.getElem?_eq_getElem (h0.trans (List.getElem?_eq_some_iff.mp hi).1)⟩
    exact h0.ne (index_unique hunique hfirst hi ((hhead first hfirst).trans hempty.symm))
  refine ⟨pages_traverse hunique hpos fun k item _ hi h0 => hne hi ?_,
    fun page h => visited_placed hunique hpos h,fun page h => ?_⟩
  · have hle := Nat.le_mul_of_pos_left limit h0
    omega
  · obtain ⟨start,rfl,hone⟩ := visited_start_ne_one hunique hlimit hhead h
    refine pageFrom_returns hunique hpos (fun item hi => hne hi (by omega)) fun item hi => ?_
    constructor
    · intro hempty
      by_contra h0
      exact hne hi (by omega) hempty
    · rintro rfl
      exact hhead item hi

theorem second_ne_first (hunique : (items.map getCursor).Nodup) (hlimit : 0 < limit)
    (hlong : limit < items.length) {first : T} (hfirst : items[0]? = some first)
    (hne : getCursor first ≠ "") : (cursorPage items getCursor limit (some (getCursor first))).data ≠
      (cursorPage items getCursor limit none).data := by
  intro hdata
  rw [cursorPage_index hunique hfirst hne,cursorPage_none,pageFrom_data hlimit,
    pageFrom_data hlimit] at hdata
  have hsecond := congrArg (fun data => data[0]?) hdata
  simp only [Chunks.chunk,List.getElem?_take_of_lt hlimit,List.getElem?_drop] at hsecond
  have hlt : 0+1 < items.length := by omega
  have hget := List.getElem?_eq_getElem hlt
  exact absurd (index_unique hunique hget (hsecond.symm.trans hget) rfl) (by omega)

/-- If there is a second page, its cursor for the previous one leads back by being empty only. -/
theorem Coherent.empty_first (h : Coherent items getCursor limit)
    (hunique : (items.map getCursor).Nodup) (hlimit : 0 < limit) (hlong : limit < items.length) :
    2 ≤ limit ∧ items.head?.map getCursor = some "" := by
  obtain ⟨first,hfirst⟩ : ∃ first, items[0]? = some first :=
    ⟨_,List.getElem?_eq_getElem (by omega)⟩
  obtain ⟨last,hlast⟩ : ∃ last, items[0+limit-1]? = some last :=
    ⟨_,List.getElem?_eq_getElem (by omega)⟩
  have hnext : (cursorPage items getCursor limit none).pagination.nextCursor =
      some (getCursor last) := by
    rw [cursorPage_none,pageFrom_nextCursor hlimit]
    exact Chunks.next_eq_some.mpr ⟨by omega,last,hlast,rfl⟩
  have hfull : getCursor last ≠ "" := by
    intro hempty
    obtain ⟨chunks,ht,-⟩ := h.traversed
    rw [hempty] at hnext
    exact first_repeats hnext ht (Or.inl rfl)
  obtain ⟨d,hd,hdata⟩ := h.returns _ .first _ hnext
  rw [cursorPage_index hunique hlast hfull,pageFrom_prevCursor hlimit,if_pos (by omega),
    show 0+limit-1+1-limit-1 = 0 by omega,hfirst] at hd
  obtain rfl := Option.some.inj hd
  have hne : getCursor first = "" := by
    by_contra hne
    exact second_ne_first hunique hlimit hlong hfirst hne hdata
  have hone : limit ≠ 1 := by
    rintro rfl
    exact hfull (Option.some.inj (hfirst.symm.trans hlast) ▸ hne)
  refine ⟨by omega,?_⟩
  rw [List.head?_eq_getElem?,hfirst,Option.map_some,hne]

/-- Exactly a list of one page is traversed forth and back, or one whose first item has the
empty cursor. -/
theorem cursorPages_coherent (hunique : (items.map getCursor).Nodup) (hlimit : 0 < limit) :
    Coherent items getCursor limit ↔
      items.length ≤ limit ∨ 2 ≤ limit ∧ items.head?.map getCursor = some "" := by
  constructor
  · intro h
    rcases Nat.lt_or_ge limit items.length with hlong | hshort
    · exact Or.inr (h.empty_first hunique hlimit hlong)
    · exact Or.inl hshort
  · rintro (hshort | ⟨htwo,hhead⟩)
    · exact coherent_of_short hunique hlimit hshort
    · refine coherent_of_empty hunique htwo fun item hi => ?_
      rw [← List.head?_eq_getElem?] at hi
      rw [hi] at hhead
      exact Option.some.inj hhead

end Coherence

/-- With one item a page, the second page's cursor for the previous page leads to itself. -/
theorem secondPage_stays : ¬ Coherent ["a","b"] id 1 := by
  intro h
  obtain ⟨d,hd,hdata⟩ := h.returns _ .first "a" (by decide)
  obtain rfl : "a" = d := Option.some.inj hd
  exact absurd hdata (by decide)

/-- With an empty cursor in front, pages of two lead back and forth. -/
theorem emptyFirst_coherent : Coherent ["","b","c"] id 2 :=
  (cursorPages_coherent (by decide) (by decide)).mpr (Or.inr (by decide))

end YieldVault.Backend
