import YieldVault.Base64
import YieldVault.Backend.CursorPages

/-! The transactions of a wallet, page by page. The position of a page is found again by
counting the rows that come before the row of the cursor. -/
namespace YieldVault.Backend

structure Transaction where
  id : String
  user : String
  amount : String
  type : String
  status : Option String := none
  referralCode : Option String := none
  timestamp : ℤ

inductive SortOrder
  | asc | desc

def SortOrder.Before : SortOrder → ℤ → ℤ → Prop
  | .asc, a, b => a < b
  | .desc, a, b => b < a

instance (o : SortOrder) (a b : ℤ) : Decidable (o.Before a b) := by
  cases o
  · exact inferInstanceAs (Decidable (a < b))
  · exact inferInstanceAs (Decidable (b < a))

structure TimestampFilter where
  gte : Option ℤ := none
  lte : Option ℤ := none
  gt : Option ℤ := none
  lt : Option ℤ := none

def TimestampFilter.admits (filter : TimestampFilter) (timestamp : ℤ) : Bool :=
  filter.gte.all (· ≤ timestamp) && filter.lte.all (timestamp ≤ ·) &&
    filter.gt.all (· < timestamp) && filter.lt.all (timestamp < ·)

structure WhereClause where
  types : List String
  status : Option String
  user : String
  timestamp : TimestampFilter

/-- The row is what the clause asks for apart from its time. -/
def WhereClause.describes (clause : WhereClause) (row : Transaction) : Bool :=
  (clause.types.isEmpty || decide (row.type ∈ clause.types)) &&
    clause.status.all (fun status => decide (row.status = some status)) &&
    decide (row.user = clause.user)

def WhereClause.meets (clause : WhereClause) (row : Transaction) : Bool :=
  clause.describes row && clause.timestamp.admits row.timestamp

/-- What a request asks for, the wallet and the dates in their normal form; no types are all. -/
structure TransactionFilter where
  types : List String := []
  status : Option String := none
  walletAddress : String
  start : Option ℤ := none
  stop : Option ℤ := none

def TransactionFilter.whereClause (filter : TransactionFilter) : WhereClause :=
  { types := filter.types
    status := filter.status
    user := filter.walletAddress
    timestamp := { gte := filter.start, lte := filter.stop } }

/-- The table, and in what order rows come that are asked for by time. -/
structure TransactionTable where
  rows : List Transaction
  unique : (rows.map Transaction.id).Nodup
  named : ∀ row ∈ rows, row.id ≠ ""
  ordered : WhereClause → SortOrder → List Transaction
  ordered_perm : ∀ clause o, (ordered clause o).Perm (rows.filter clause.meets)
  ordered_sorted : ∀ clause o,
    (ordered clause o).Pairwise fun a b => ¬ o.Before b.timestamp a.timestamp

namespace TransactionTable

variable (table : TransactionTable)

def count (clause : WhereClause) : ℕ := table.rows.countP clause.meets

def findUnique (id : String) : Option Transaction := table.rows.find? fun row => row.id = id

def findMany (clause : WhereClause) (o : SortOrder) (skip take : ℕ) : List Transaction :=
  ((table.ordered clause o).drop skip).take take

end TransactionTable

def encodeCursor (value : String) : String :=
  String.ofList (Base64.encode value.toUTF8.data.toList)

/-- `none` where the bytes are not UTF-8: the text that stands for them is no row's id. -/
def decodeCursor (cursor : String) : Option String :=
  String.fromUTF8? ⟨(Base64.decode cursor.toList).toArray⟩

example : encodeCursor "tx-1" = "dHgtMQ" ∧ decodeCursor "dHgtMQ" = some "tx-1" := by
  decide +kernel

def maxLimit : ℕ := 100

/-- The query string as far as it could be read. -/
structure TransactionQuery where
  limit : Option ℤ := none
  cursor : Option String := none
  sortOrder : SortOrder := .desc

def TransactionQuery.size (query : TransactionQuery) : ℕ :=
  match query.limit with
  | some limit => if 0 < limit then min limit.toNat maxLimit else defaultLimit
  | none => defaultLimit

/-- The filter of the request, but with a bound of its own on the timestamp. -/
def beyond (o : SortOrder) (timestamp : ℤ) (clause : WhereClause) : WhereClause :=
  { clause with timestamp := match o with
    | .desc => { gt := some timestamp }
    | .asc => { lt := some timestamp } }

def skipTo (table : TransactionTable) (clause : WhereClause) (query : TransactionQuery) :
    Except String ℕ :=
  match query.cursor.filter (· ≠ "") with
  | none => .ok 0
  | some cursor => match (decodeCursor cursor).bind table.findUnique with
    | none => .error "Invalid cursor value"
    | some cursorTx => .ok (table.count (beyond query.sortOrder cursorTx.timestamp clause))

def listTransactions (table : TransactionTable) (filter : TransactionFilter)
    (query : TransactionQuery) : Except String (CursorPage Transaction) := do
  let whereClause := filter.whereClause
  let total := table.count whereClause
  let skip ← skipTo table whereClause query
  let limit := query.size
  let transactions := table.findMany whereClause query.sortOrder skip (limit+1)
  let hasMore := decide (limit < transactions.length)
  let data := if hasMore then transactions.take limit else transactions
  return ⟨data,
    { count := data.length
      limit := limit
      total := some total
      hasNextPage := hasMore
      hasPrevPage := decide (0 < skip)
      nextCursor := if hasMore then data.getLast?.map (encodeCursor ·.id) else none }⟩

/-- What a client gets that follows the cursors. -/
def Listed (table : TransactionTable) (filter : TransactionFilter) (limit : Option ℤ)
    (o : SortOrder) (cursor : Option String) (data : List Transaction) (next : Option String) :
    Prop :=
  ∃ page, listTransactions table filter ⟨limit,cursor,o⟩ = .ok page ∧ page.data = data ∧
    page.pagination.nextCursor = next

/-- Following the cursors ends, with every row that matches met once and in the order asked for. -/
def Traversed (table : TransactionTable) (filter : TransactionFilter) (limit : Option ℤ)
    (o : SortOrder) : Prop :=
  ∃ chunks, Chunks.Traversal (Listed table filter limit o) none chunks ∧
    chunks.flatten.Perm (table.rows.filter filter.whereClause.meets) ∧
    chunks.flatten.Pairwise fun a b => ¬ o.Before b.timestamp a.timestamp

section Positions

variable {table : TransactionTable} {filter : TransactionFilter} {limit : Option ℤ}
  {o : SortOrder} {cursor : Option String}

theorem decodeCursor_encodeCursor (value : String) :
    decodeCursor (encodeCursor value) = some value := by
  rw [decodeCursor,encodeCursor,String.toList_ofList,Base64.decode_encode,Array.toArray_toList,
    String.fromUTF8?]
  exact dif_pos value.isValidUTF8

theorem encodeCursor_ne_empty {value : String} (h : value ≠ "") : encodeCursor value ≠ "" := by
  intro he
  have hdecode := decodeCursor_encodeCursor value
  rw [he] at hdecode
  exact h (Option.some.inj (hdecode.symm.trans (by decide)))

theorem findUnique_row {row : Transaction} (h : row ∈ table.rows) :
    table.findUnique row.id = some row := by
  unfold TransactionTable.findUnique
  obtain ⟨found,hfound⟩ := Option.isSome_iff_exists.mp
    (List.find?_isSome (p := fun other : Transaction => decide (other.id = row.id)).mpr
      ⟨row,h,decide_eq_true rfl⟩)
  have hid : found.id = row.id := by simpa using List.find?_some hfound
  rw [hfound,List.inj_on_of_nodup_map table.unique (List.mem_of_find?_eq_some hfound) h hid]

theorem skipTo_row {row : Transaction} (h : row ∈ table.rows) (clause : WhereClause) :
    skipTo table clause ⟨limit,some (encodeCursor row.id),o⟩ =
      .ok (table.count (beyond o row.timestamp clause)) := by
  simp only [skipTo,Option.filter,encodeCursor_ne_empty (table.named row h),ne_eq,not_false_eq_true,
    decide_true,if_true,decodeCursor_encodeCursor,Option.bind_some,findUnique_row h]

def skipped (table : TransactionTable) (filter : TransactionFilter) (o : SortOrder)
    (cursor : Option String) : ℕ :=
  match skipTo table filter.whereClause ⟨none,cursor,o⟩ with
  | .ok skip => skip
  | .error _ => 0

theorem skipped_row {row : Transaction} (h : row ∈ table.rows) :
    skipped table filter o (some (encodeCursor row.id)) =
      table.count (beyond o row.timestamp filter.whereClause) := by
  rw [skipped,skipTo_row h]

def rowsFor (table : TransactionTable) (filter : TransactionFilter) (o : SortOrder) :
    List Transaction :=
  table.ordered filter.whereClause o

theorem mem_rowsFor {row : Transaction} : row ∈ rowsFor table filter o ↔
    row ∈ table.rows ∧ filter.whereClause.meets row = true := by
  rw [rowsFor,(table.ordered_perm _ o).mem_iff,List.mem_filter]

theorem rowsFor_nodup : (rowsFor table filter o).Nodup :=
  (table.ordered_perm _ o).nodup_iff.mpr (table.unique.of_map _ |>.filter _)

theorem size_pos {query : TransactionQuery} : 0 < query.size := by
  unfold TransactionQuery.size
  split
  · split_ifs with h
    · exact lt_min (by omega) (by decide)
    · decide
  · decide

theorem listed_iff {skip : ℕ} (hskip : skipTo table filter.whereClause ⟨limit,cursor,o⟩ = .ok skip)
    {data : List Transaction} {next : Option String} :
    Listed table filter limit o cursor data next ↔
      data = Chunks.chunk (rowsFor table filter o) (TransactionQuery.mk limit cursor o).size skip ∧
        next = Chunks.next (rowsFor table filter o) (TransactionQuery.mk limit cursor o).size
          (encodeCursor ·.id) skip := by
  simp only [Listed,listTransactions,hskip,TransactionTable.findMany,decide_eq_true_eq,
    Chunks.more_iff,Chunks.chunk_of_more,Chunks.next_of_chunk size_pos,rowsFor]
  constructor
  · rintro ⟨page,hok,rfl,rfl⟩
    obtain rfl := Except.ok.inj hok
    exact ⟨rfl,rfl⟩
  · rintro ⟨rfl,rfl⟩
    exact ⟨_,rfl,rfl,rfl⟩

theorem listed_chunked (limit : Option ℤ) : Chunks.Chunked (Listed table filter limit o)
    (rowsFor table filter o) (TransactionQuery.mk limit none o).size (encodeCursor ·.id)
    (skipped table filter o) where
  limit_pos := size_pos
  start := rfl
  answers_iff {cursor data next} hcursor := by
    refine listed_iff ?_
    cases cursor with
    | none => rfl
    | some c =>
      obtain ⟨row,hrow,rfl⟩ := List.mem_map.mp (hcursor c rfl)
      rw [skipTo_row (mem_rowsFor.mp hrow).1,skipped_row (mem_rowsFor.mp hrow).1]

end Positions

section Counting

variable {table : TransactionTable} {filter : TransactionFilter} {limit : Option ℤ}
  {o : SortOrder} {row : Transaction}

/-- The end of the range from which its rows are listed. -/
def TransactionFilter.firstBound (filter : TransactionFilter) : SortOrder → Option ℤ
  | .desc => filter.stop
  | .asc => filter.start

/-- The rows that only the range keeps out and that come before it. -/
def TransactionFilter.Leads (filter : TransactionFilter) (o : SortOrder) (row : Transaction) :
    Bool :=
  filter.whereClause.describes row &&
    (filter.firstBound o).any fun bound => o.Before row.timestamp bound

def leading (table : TransactionTable) (filter : TransactionFilter) (o : SortOrder) : ℕ :=
  table.rows.countP (filter.Leads o)

theorem meets_whereClause (other : Transaction) : filter.whereClause.meets other = true ↔
    filter.whereClause.describes other = true ∧
      (∀ start, filter.start = some start → start ≤ other.timestamp) ∧
      ∀ stop, filter.stop = some stop → other.timestamp ≤ stop := by
  have hadmits : filter.whereClause.timestamp.admits other.timestamp = true ↔
      (∀ start, filter.start = some start → start ≤ other.timestamp) ∧
        ∀ stop, filter.stop = some stop → other.timestamp ≤ stop := by
    cases hstart : filter.start <;> cases hstop : filter.stop <;>
      simp [TransactionFilter.whereClause,TimestampFilter.admits,hstart,hstop]
  rw [WhereClause.meets,Bool.and_eq_true,hadmits]

theorem meets_beyond (timestamp : ℤ) (other : Transaction) :
    (beyond o timestamp filter.whereClause).meets other = true ↔
      filter.whereClause.describes other = true ∧ o.Before other.timestamp timestamp := by
  rw [WhereClause.meets,Bool.and_eq_true]
  refine and_congr (by cases o <;> rfl) ?_
  cases o <;> simp [TimestampFilter.admits,beyond,SortOrder.Before]

theorem leads_iff (other : Transaction) : filter.Leads o other = true ↔
    filter.whereClause.describes other = true ∧
      ∃ bound, filter.firstBound o = some bound ∧ o.Before other.timestamp bound := by
  rw [TransactionFilter.Leads,Bool.and_eq_true,Option.any_eq_true]
  simp

/-- A row beyond another one of the range leads if the range keeps it out. -/
theorem beyond_leads (h : filter.whereClause.meets row = true) (other : Transaction) :
    (beyond o row.timestamp filter.whereClause).meets other = true ∧
      ¬ filter.whereClause.meets other = true ↔ filter.Leads o other = true := by
  obtain ⟨-,hstart,hstop⟩ := (meets_whereClause row).mp h
  rw [meets_beyond,meets_whereClause,leads_iff]
  by_cases hdescribes : filter.whereClause.describes other = true
  · simp only [hdescribes,true_and,not_and_or,not_forall]
    cases o with
    | asc =>
      constructor
      · rintro ⟨hlt,⟨start,he,hout⟩ | ⟨stop,he,hout⟩⟩
        · exact ⟨start,he,not_le.mp hout⟩
        · exact absurd (le_of_lt hlt |>.trans (hstop stop he)) hout
      · rintro ⟨start,he,hout⟩
        exact ⟨lt_of_lt_of_le hout (hstart start he),Or.inl ⟨start,he,not_le.mpr hout⟩⟩
    | desc =>
      constructor
      · rintro ⟨hlt,⟨start,he,hout⟩ | ⟨stop,he,hout⟩⟩
        · exact absurd ((hstart start he).trans (le_of_lt hlt)) hout
        · exact ⟨stop,he,not_le.mp hout⟩
      · rintro ⟨stop,he,hout⟩
        exact ⟨lt_of_le_of_lt (hstop stop he) hout,Or.inr ⟨stop,he,not_le.mpr hout⟩⟩
  · simp [hdescribes]

/-- Beyond a row of the range there are the rows before it and those that the range keeps out. -/
theorem count_beyond (h : row ∈ rowsFor table filter o) :
    table.count (beyond o row.timestamp filter.whereClause) =
      leading table filter o +
        (rowsFor table filter o).countP fun other => o.Before other.timestamp row.timestamp := by
  have hmeets := (mem_rowsFor.mp h).2
  rw [TransactionTable.count,leading,rowsFor,(table.ordered_perm _ o).countP_eq,List.countP_filter,
    List.countP_eq_countP_filter_add _ _ filter.whereClause.meets,List.countP_filter,
    List.countP_filter,Nat.add_comm]
  congr 1
  · refine List.countP_congr fun other _ => ?_
    rw [← beyond_leads hmeets other]
    simp
  · refine List.countP_congr fun other _ => ?_
    simp only [Bool.and_eq_true,meets_beyond,decide_eq_true_eq]
    rw [meets_whereClause]
    tauto

theorem before_irrefl (t : ℤ) : ¬ o.Before t t := by
  cases o with
  | asc => exact lt_irrefl t
  | desc => exact lt_irrefl t

theorem rowsFor_sorted {i j : ℕ} {a b : Transaction} (hij : i ≤ j)
    (ha : (rowsFor table filter o)[i]? = some a) (hb : (rowsFor table filter o)[j]? = some b) :
    ¬ o.Before b.timestamp a.timestamp := by
  obtain ⟨hi,rfl⟩ := List.getElem?_eq_some_iff.mp ha
  obtain ⟨hj,rfl⟩ := List.getElem?_eq_some_iff.mp hb
  rcases Nat.eq_or_lt_of_le hij with rfl | hlt
  · exact before_irrefl _
  · exact List.pairwise_iff_getElem.mp (table.ordered_sorted filter.whereClause o) i j hi hj hlt

theorem before_add_tied {i : ℕ} (h : (rowsFor table filter o)[i]? = some row) :
    ((rowsFor table filter o).countP fun other => o.Before other.timestamp row.timestamp) +
      (((rowsFor table filter o).take (i+1)).countP fun other =>
        other.timestamp = row.timestamp) = i+1 := by
  have hlength : ((rowsFor table filter o).take (i+1)).length = i+1 := by
    rw [List.length_take,Nat.min_eq_left (List.getElem?_eq_some_iff.mp h).1]
  have hafter : ((rowsFor table filter o).drop (i+1)).countP
      (fun other => o.Before other.timestamp row.timestamp) = 0 := by
    rw [List.countP_eq_zero]
    intro other hother
    obtain ⟨n,hn⟩ := List.mem_iff_getElem?.mp hother
    rw [List.getElem?_drop] at hn
    rw [decide_eq_true_eq]
    exact rowsFor_sorted (by omega) h hn
  have htied : ((rowsFor table filter o).take (i+1)).countP
        (fun other => other.timestamp = row.timestamp) =
      ((rowsFor table filter o).take (i+1)).countP
        fun other => ¬ (decide (o.Before other.timestamp row.timestamp) = true) := by
    refine List.countP_congr fun other hother => ?_
    obtain ⟨n,hn⟩ := List.mem_iff_getElem?.mp hother
    rw [List.getElem?_take] at hn
    split_ifs at hn with hlt
    have hnot := rowsFor_sorted (Nat.le_of_lt_succ hlt) hn h
    simp only [decide_eq_true_eq]
    cases o with
    | asc => exact ⟨fun he => not_lt.mpr he.ge,fun hge => le_antisymm (not_lt.mp hnot) (not_lt.mp hge)⟩
    | desc => exact ⟨fun he => not_lt.mpr he.le,fun hge => le_antisymm (not_lt.mp hge) (not_lt.mp hnot)⟩
  rw [htied,← List.take_append_drop (i+1) (rowsFor table filter o),List.countP_append,hafter,
    List.take_append_drop,Nat.add_zero,← List.length_eq_countP_add_countP,hlength]

theorem skipped_rising (i j : ℕ) (a b : Transaction) (hij : i ≤ j)
    (ha : (rowsFor table filter o)[i]? = some a) (hb : (rowsFor table filter o)[j]? = some b) :
    skipped table filter o (some (encodeCursor a.id)) ≤
      skipped table filter o (some (encodeCursor b.id)) := by
  have hnot := rowsFor_sorted hij ha hb
  rw [skipped_row (mem_rowsFor.mp (List.mem_of_getElem? ha)).1,
    skipped_row (mem_rowsFor.mp (List.mem_of_getElem? hb)).1]
  refine List.countP_mono_left fun other _ hother => ?_
  rw [meets_beyond] at hother ⊢
  refine ⟨hother.1,?_⟩
  cases o with
  | asc => exact lt_of_lt_of_le hother.2 (not_lt.mp hnot)
  | desc => exact lt_of_le_of_lt (not_lt.mp hnot) hother.2

/-- Every full page but the last ends with as many rows of one time as there are leading rows. -/
def Balanced (table : TransactionTable) (filter : TransactionFilter) (limit : Option ℤ)
    (o : SortOrder) : Prop :=
  ∀ k row, k*(TransactionQuery.mk limit none o).size < (rowsFor table filter o).length →
    (rowsFor table filter o)[k*(TransactionQuery.mk limit none o).size-1]? = some row → 0 < k →
      leading table filter o =
        ((rowsFor table filter o).take (k*(TransactionQuery.mk limit none o).size)).countP
          fun other => other.timestamp = row.timestamp

theorem lined_iff_balanced : Chunks.Lined (rowsFor table filter o)
    (TransactionQuery.mk limit none o).size (encodeCursor ·.id) (skipped table filter o) ↔
      Balanced table filter limit o := by
  refine forall₂_congr fun k row => forall₃_congr fun hk hrow h0 => ?_
  have hsize : 0 < (TransactionQuery.mk limit none o).size := size_pos
  have hpos := Nat.mul_pos h0 hsize
  have hmem := List.mem_of_getElem? hrow
  have htied := before_add_tied hrow
  rw [Nat.sub_add_cancel hpos] at htied
  rw [skipped_row (mem_rowsFor.mp hmem).1,count_beyond hmem]
  omega

theorem leading_unbounded (h : filter.firstBound o = none) : leading table filter o = 0 := by
  simp [leading,TransactionFilter.Leads,h]

/-- Without leading rows there is no more than one page. -/
theorem balanced_unbounded (h : leading table filter o = 0) : Balanced table filter limit o ↔
    (rowsFor table filter o).length ≤ (TransactionQuery.mk limit none o).size := by
  have hsize : 0 < (TransactionQuery.mk limit none o).size := size_pos
  constructor
  · intro hbalanced
    by_contra hlong
    obtain ⟨row,hrow⟩ : ∃ row,
        (rowsFor table filter o)[1*(TransactionQuery.mk limit none o).size-1]? = some row :=
      ⟨_,List.getElem?_eq_getElem (by omega)⟩
    have hnone := hbalanced 1 row (by omega) hrow Nat.one_pos
    rw [h,eq_comm,List.countP_eq_zero] at hnone
    have hmem : row ∈ (rowsFor table filter o).take (1*(TransactionQuery.mk limit none o).size) :=
      List.mem_iff_getElem?.mpr ⟨1*(TransactionQuery.mk limit none o).size-1,
        by rwa [List.getElem?_take_of_lt (by omega)]⟩
    exact hnone row hmem (decide_eq_true rfl)
  · intro hshort k row hk _ h0
    have hle := Nat.le_mul_of_pos_left (TransactionQuery.mk limit none o).size h0
    omega

end Counting

/-- Following the cursors meets every row once in exactly the cases in which the rows of one
time at the end of every page make up for the leading rows. -/
theorem transactions_traversed (table : TransactionTable) (filter : TransactionFilter)
    (limit : Option ℤ) (o : SortOrder) :
    Traversed table filter limit o ↔ Balanced table filter limit o := by
  have hchunked := @listed_chunked table filter o limit
  have hperm := table.ordered_perm filter.whereClause o
  have hsorted := table.ordered_sorted filter.whereClause o
  constructor
  · rintro ⟨chunks,ht,hall,-⟩
    exact lined_iff_balanced.mp ((hchunked.covers_iff skipped_rising rowsFor_nodup).mp
      ⟨chunks,ht,hall.trans hperm.symm⟩)
  · intro hbalanced
    obtain ⟨chunks,ht,hflat⟩ := hchunked.whole_traversal (lined_iff_balanced.mpr hbalanced)
    exact ⟨chunks,ht,by rw [hflat]; exact hperm,by rw [hflat]; exact hsorted⟩

section Examples

def tableOf (rows : List Transaction) (unique : (rows.map Transaction.id).Nodup)
    (named : ∀ row ∈ rows, row.id ≠ "") : TransactionTable where
  rows := rows
  unique := unique
  named := named
  ordered clause o :=
    (rows.filter clause.meets).insertionSort fun a b => ¬ o.Before b.timestamp a.timestamp
  ordered_perm clause o := List.perm_insertionSort _ _
  ordered_sorted clause o := by
    have htotal : Std.Total fun a b : Transaction => ¬ o.Before b.timestamp a.timestamp :=
      ⟨fun a b => by cases o <;> simp only [SortOrder.Before] <;> omega⟩
    have htrans : IsTrans Transaction fun a b => ¬ o.Before b.timestamp a.timestamp :=
      ⟨fun a b c hab hbc => by cases o <;> simp only [SortOrder.Before] at hab hbc ⊢ <;> omega⟩
    exact List.pairwise_insertionSort _ _

def twoDeposits : TransactionTable :=
  tableOf [⟨"a","G","5","deposit",some "completed",none,1000⟩,
    ⟨"b","G","7","deposit",some "completed",none,2000⟩] (by decide) (by decide)

/-- With one row a page the second page is the first one again, and so is every other. -/
theorem twoDeposits_repeat :
    ¬ Traversed twoDeposits { walletAddress := "G" } (some 1) .desc := by
  rintro ⟨chunks,ht,-⟩
  refine ht.not_closed (K := fun c => c = none ∨ c = some (encodeCursor "b")) ?_ (Or.inl rfl)
  have hnext : Chunks.next (rowsFor twoDeposits { walletAddress := "G" } .desc) 1
      (encodeCursor ·.id) 0 = some (encodeCursor "b") := by rfl
  rintro cursor data c (rfl | rfl) h
  · obtain rfl : c = some (encodeCursor "b") := ((listed_iff rfl).mp h).2.trans hnext
    exact ⟨by simp,Or.inr rfl⟩
  · have hlast : (⟨"b","G","7","deposit",some "completed",none,2000⟩ : Transaction) ∈
        twoDeposits.rows := List.mem_cons_of_mem _ List.mem_cons_self
    obtain rfl : c = some (encodeCursor "b") :=
      ((listed_iff (skipTo_row hlast _)).mp h).2.trans hnext
    exact ⟨by simp,Or.inr rfl⟩

end Examples

end YieldVault.Backend
