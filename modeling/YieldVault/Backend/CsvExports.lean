import YieldVault.Csv

/-! The CSV files of the bulk exports and of the transaction export. -/
namespace YieldVault.Backend
open Csv

section Bulk

inductive ExportFormat
  | csv | json

/-- A row with its own keys in their order; a value that is null is none. -/
structure ExportRow where
  entries : List (String × Option String)
  distinct : (entries.map Prod.fst).Nodup

structure BulkExportArtifact where
  id : String
  body : String
  contentType : String
  checksum : String
  checksumAlgorithm : String
  rowCount : ℕ

/-- What the language supplies: JSON texts, hashes and new names. -/
structure ExportRuntime where
  stringify : List ExportRow → String
  sha256 : String → String
  newId : String

def prototypeFunctions : List String :=
  ["__defineGetter__","__defineSetter__","hasOwnProperty","__lookupGetter__","__lookupSetter__",
    "isPrototypeOf","propertyIsEnumerable","toString","valueOf","toLocaleString"]

/-- The properties that every object inherits, as texts. -/
def objectPrototype (name : String) : Option String :=
  if name = "__proto__" then some "[object Object]"
  else if name = "constructor" then some "function Object() \x7b [native code] \x7d"
  else if name ∈ prototypeFunctions then
    some ("function " ++ name ++ "() \x7b [native code] \x7d")
  else none

def ExportRow.keys (row : ExportRow) : List String := row.entries.map Prod.fst

/-- `row[h]`, where a missing property is looked for in the prototype. -/
def ExportRow.get (row : ExportRow) (h : String) : Option String :=
  match row.entries.lookup h with
  | some value => value
  | none => objectPrototype h

def needsQuotes (str : String) : Bool :=
  str.toList.contains ',' || str.toList.contains '"' || str.toList.contains '\n'

def bulkCell (row : ExportRow) (h : String) : String :=
  let str := (row.get h).getD ""
  if needsQuotes str then String.ofList (quote str.toList) else str

def csvBody : List ExportRow → String
  | [] => ""
  | first :: rest =>
    let headers := first.keys
    let csvLines := (first :: rest).map fun row => ",".intercalate (headers.map (bulkCell row))
    "\n".intercalate (",".intercalate headers :: csvLines)

def buildBulkExportArtifact (runtime : ExportRuntime) (format : ExportFormat)
    (rows : List ExportRow) : BulkExportArtifact :=
  let body := match format with
    | .csv => csvBody rows
    | .json => runtime.stringify rows
  let contentType := match format with
    | .csv => "text/csv"
    | .json => "application/json"
  { id := runtime.newId, body, contentType, checksum := runtime.sha256 body
    checksumAlgorithm := "sha256", rowCount := rows.length }

end Bulk

section Transactions

structure ListedTransaction where
  id : String
  type : String
  status : String
  amount : String
  asset : String
  timestamp : String
  transactionHash : String
  walletAddress : String

def ListedTransaction.columns : List (String × (ListedTransaction → String)) :=
  [("id",id),("type",type),("status",status),("amount",amount),("asset",asset),
    ("timestamp",timestamp),("transactionHash",transactionHash),("walletAddress",walletAddress)]

def escapeCsvValue (serialized : String) : String := String.ofList (quote serialized.toList)

def csvHeader : String := ",".intercalate (ListedTransaction.columns.map Prod.fst) ++ "\r\n"

def csvRow (transaction : ListedTransaction) : String :=
  ",".intercalate (ListedTransaction.columns.map fun column => escapeCsvValue (column.2 transaction))

def buildTransactionsCsvExportBody (transactions : List ListedTransaction) : String :=
  let rows := transactions.map csvRow
  csvHeader ++ String.join (rows.map fun row => row ++ "\r\n")

def createTransactionsCsvExportStream (transactions : List ListedTransaction) : List String :=
  csvHeader :: transactions.map fun transaction => csvRow transaction ++ "\r\n"

end Transactions

section Decoding

variable {bareLf : Bool}

theorem toList_line (texts : List String) :
    (",".intercalate texts).toList = line (texts.map String.toList) := by
  rw [String.toList_intercalate]
  rfl

def transactionTable (transactions : List ListedTransaction) : List (List String) :=
  ListedTransaction.columns.map Prod.fst ::
    transactions.map fun transaction => ListedTransaction.columns.map fun column => column.2 transaction

theorem toList_escapeCsvValue (serialized : String) :
    (escapeCsvValue serialized).toList = quote serialized.toList := String.toList_ofList

theorem plain_columns : ∀ name ∈ ListedTransaction.columns.map Prod.fst, Plain name.toList := by
  have hall : (ListedTransaction.columns.map Prod.fst).all
      (fun name => name.toList.all fun c => !special c) = true := by decide
  exact fun name hname => plain_of_all (List.all_eq_true.mp hall name hname)

def transactionCells (transactions : List ListedTransaction) : List (List (List Char)) :=
  (ListedTransaction.columns.map Prod.fst).map String.toList ::
    transactions.map fun transaction =>
      ListedTransaction.columns.map fun column => quote (column.2 transaction).toList

theorem toList_transactionsBody (transactions : List ListedTransaction) :
    (buildTransactionsCsvExportBody transactions).toList =
      (transactionCells transactions).flatMap fun es => line es ++ ['\r','\n'] := by
  have hrow : ∀ transaction, (csvRow transaction ++ "\r\n").toList =
      line (ListedTransaction.columns.map fun column => quote (column.2 transaction).toList) ++
        ['\r','\n'] := by
    intro transaction
    have hcells : (ListedTransaction.columns.map fun column =>
        escapeCsvValue (column.2 transaction)).map String.toList =
        ListedTransaction.columns.map fun column => quote (column.2 transaction).toList := by
      rw [List.map_map]
      exact List.map_congr_left fun column _ => toList_escapeCsvValue _
    have hbreak : "\r\n".toList = ['\r','\n'] := rfl
    rw [String.toList_append,csvRow,toList_line,hcells,hbreak]
  rw [buildTransactionsCsvExportBody,String.toList_append,csvHeader,String.toList_append,
    toList_line,String.toList_join,List.map_map,List.flatMap_map,transactionCells,
    List.flatMap_cons,List.flatMap_map]
  congr 1
  rw [List.flatMap_map]
  exact List.flatMap_congr fun transaction _ => hrow transaction

/-- The transaction export is read back, whatever counts as a line break. -/
theorem decode_transactions (bareLf : Bool) (transactions : List ListedTransaction) :
    decode bareLf (buildTransactionsCsvExportBody transactions) =
      some (transactionTable transactions) := by
  rw [decode_eq_some_iff,toList_transactionsBody]
  refine read_crlf_lines ?_ ?_
  · refine .cons (List.forall₂_same.mpr fun e he => ?_) ?_
    · obtain ⟨name,hname,rfl⟩ := List.mem_map.mp he
      exact encodes_plain (plain_columns name hname)
    · rw [List.map_map,List.forall₂_map_left_iff,List.forall₂_map_right_iff,List.forall₂_same]
      intro transaction _
      simp only [Function.comp_apply]
      rw [List.map_map,List.forall₂_map_left_iff,List.forall₂_map_right_iff,List.forall₂_same]
      exact fun column _ => encodes_quote _
  · intro es hes
    rcases List.mem_cons.mp hes with rfl | hes
    · simp [ListedTransaction.columns]
    · obtain ⟨transaction,-,rfl⟩ := List.mem_map.mp hes
      simp [ListedTransaction.columns]

theorem join_stream (transactions : List ListedTransaction) :
    String.join (createTransactionsCsvExportStream transactions) =
      buildTransactionsCsvExportBody transactions := by
  rw [createTransactionsCsvExportStream,String.join_cons,buildTransactionsCsvExportBody,List.map_map]
  rfl

end Decoding

section BulkDecoding

/-- All keys of the rows, in the order in which they first come. -/
def exportColumns (rows : List ExportRow) : List String :=
  rows.foldl (fun columns row => columns ++ row.keys.filter (· ∉ columns)) []

/-- The value of a row in a column; a row without the key has an empty one. -/
def ExportRow.exported (row : ExportRow) (h : String) : String :=
  ((row.entries.lookup h).getD none).getD ""

def bulkTable (rows : List ExportRow) : List (List String) :=
  if rows = [] then []
  else exportColumns rows :: rows.map fun row => (exportColumns rows).map row.exported

theorem foldl_columns (columns : List String) (rows : List ExportRow) :
    ∃ extra, rows.foldl (fun columns row => columns ++ row.keys.filter (· ∉ columns)) columns =
        columns ++ extra ∧
      (∀ row ∈ rows, ∀ h ∈ row.keys, h ∈ columns ++ extra) ∧
      ((∀ row ∈ rows, ∀ h ∈ row.keys, h ∈ columns) → extra = []) := by
  induction rows generalizing columns with
  | nil => exact ⟨[],by simp⟩
  | cons row rows ih =>
    obtain ⟨extra,hfold,hmem,hnone⟩ := ih (columns ++ row.keys.filter (· ∉ columns))
    refine ⟨row.keys.filter (· ∉ columns) ++ extra,?_,?_,?_⟩
    · rw [List.foldl_cons,hfold,List.append_assoc]
    · rw [← List.append_assoc]
      refine List.forall_mem_cons.mpr ⟨fun h hh => ?_,hmem⟩
      by_cases hold : h ∈ columns
      · simp [hold]
      · simp [hold,hh]
    · intro hall
      obtain ⟨hrow,hrows⟩ := List.forall_mem_cons.mp hall
      have hfilter : row.keys.filter (· ∉ columns) = [] :=
        List.filter_eq_nil_iff.mpr fun h hh => by simpa using hrow h hh
      rw [hfilter,List.append_nil] at hnone
      rw [hfilter,List.nil_append]
      exact hnone hrows

theorem exportColumns_cons (first : ExportRow) (rest : List ExportRow) :
    ∃ extra, exportColumns (first :: rest) = first.keys ++ extra ∧
      (∀ row ∈ rest, ∀ h ∈ row.keys, h ∈ first.keys ++ extra) ∧
      ((∀ row ∈ rest, ∀ h ∈ row.keys, h ∈ first.keys) → extra = []) := by
  have hfilter : first.keys.filter (· ∉ ([] : List String)) = first.keys :=
    List.filter_eq_self.mpr fun h _ => by simp
  obtain ⟨extra,hfold,hmem,hnone⟩ := foldl_columns first.keys rest
  refine ⟨extra,?_,hmem,hnone⟩
  rw [exportColumns,List.foldl_cons,hfilter,List.nil_append,hfold]

theorem lookup_eq_none_of_notMem {row : ExportRow} {h : String} (hh : h ∉ row.keys) :
    row.entries.lookup h = none := by
  rw [List.lookup_eq_none_iff]
  intro entry hentry
  have hne : h ≠ entry.1 := fun heq => hh (heq ▸ List.mem_map_of_mem hentry)
  simpa using hne

theorem lookup_of_mem {row : ExportRow} {h : String} (hh : h ∈ row.keys) :
    ∃ value, row.entries.lookup h = some value := by
  cases hlookup : row.entries.lookup h with
  | some value => exact ⟨value,rfl⟩
  | none =>
    obtain ⟨entry,hentry,rfl⟩ := List.mem_map.mp hh
    have := List.lookup_eq_none_iff.mp hlookup entry hentry
    simp at this

theorem get_eq_exported {row : ExportRow} {h : String} (hh : h ∈ row.keys) :
    (row.get h).getD "" = row.exported h := by
  obtain ⟨value,hvalue⟩ := lookup_of_mem hh
  simp only [ExportRow.get,ExportRow.exported,hvalue,Option.getD_some]

theorem exported_of_notMem {row : ExportRow} {h : String} (hh : h ∉ row.keys) :
    row.exported h = "" := by
  rw [ExportRow.exported,lookup_eq_none_of_notMem hh]
  rfl

theorem get_of_notMem {row : ExportRow} {h : String} (hh : h ∉ row.keys) :
    row.get h = objectPrototype h := by
  rw [ExportRow.get,lookup_eq_none_of_notMem hh]

theorem objectPrototype_plain {h text : String} (heq : objectPrototype h = some text) :
    Plain text.toList ∧ text ≠ "" := by
  unfold objectPrototype at heq
  split_ifs at heq with h₁ h₂ h₃
  · obtain rfl := Option.some.inj heq
    exact ⟨plain_of_all (by decide),by decide⟩
  · obtain rfl := Option.some.inj heq
    exact ⟨plain_of_all (by decide),by decide⟩
  · obtain rfl := Option.some.inj heq
    have hname : Plain h.toList := by
      have hall : prototypeFunctions.all (fun name => name.toList.all fun c => !special c) = true := by
        decide
      exact plain_of_all (List.all_eq_true.mp hall h h₃)
    rw [String.toList_append,String.toList_append]
    refine ⟨((plain_of_all (by decide)).append hname).append (plain_of_all (by decide)),?_⟩
    intro hempty
    have := congrArg String.toList hempty
    simp at this

def bulkCells (first : ExportRow) (rows : List ExportRow) : List (List (List Char)) :=
  first.keys.map String.toList ::
    rows.map fun row => first.keys.map fun h => (bulkCell row h).toList

theorem toList_csvBody (first : ExportRow) (rest : List ExportRow) :
    (csvBody (first :: rest)).toList = join '\n' ((bulkCells first (first :: rest)).map line) := by
  have hlines : ((first :: rest).map fun row => ",".intercalate (first.keys.map (bulkCell row))).map
      String.toList = ((first :: rest).map fun row =>
        first.keys.map fun h => (bulkCell row h).toList).map line := by
    rw [List.map_map,List.map_map]
    refine List.map_congr_left fun row _ => ?_
    simp only [Function.comp_apply]
    rw [toList_line,List.map_map]
    rfl
  rw [csvBody,String.toList_intercalate,List.map_cons,toList_line,hlines]
  rfl

/-- The header and the cells of a bulk export have to be what a reader takes them for. -/
structure BulkReadable (first : ExportRow) (rest : List ExportRow) : Prop where
  columns : first.keys ≠ []
  covers : ∀ row ∈ rest, ∀ h ∈ row.keys, h ∈ first.keys
  headers : ∀ h ∈ first.keys, Plain h.toList
  inherited : ∀ row ∈ first :: rest, ∀ h ∈ first.keys, h ∉ row.keys → objectPrototype h = none
  carriage : ∀ row ∈ first :: rest, ∀ h ∈ first.keys, '\r' ∈ (row.exported h).toList →
    needsQuotes (row.exported h) = true
  lastLine : first.keys.length = 1 → ∀ h ∈ first.keys,
    ((first :: rest).getLast (List.cons_ne_nil _ _)).exported h ≠ ""

theorem not_plain_of_carriage {str : String} (h : '\r' ∈ str.toList) : ¬Plain str.toList :=
  fun hplain => absurd (hplain _ h) (by decide)

theorem plain_of_unquoted {str : String} (h : needsQuotes str = false) (hcr : '\r' ∉ str.toList) :
    Plain str.toList := by
  simp only [needsQuotes,Bool.or_eq_false_iff] at h
  obtain ⟨⟨hcomma,hquote⟩,hlf⟩ := h
  intro c hc
  by_contra hspecial
  simp only [special,Bool.not_eq_false,Bool.or_eq_true,decide_eq_true_eq] at hspecial
  rcases hspecial with ((rfl | rfl) | rfl) | rfl
  · simp [hc] at hcomma
  · simp [hc] at hquote
  · exact hcr hc
  · simp [hc] at hlf

theorem bulkCell_cases (row : ExportRow) (h : String) :
    (needsQuotes ((row.get h).getD "") = true ∧
      (bulkCell row h).toList = quote ((row.get h).getD "").toList) ∨
    (needsQuotes ((row.get h).getD "") = false ∧ bulkCell row h = (row.get h).getD "") := by
  cases hneeds : needsQuotes ((row.get h).getD "") with
  | true =>
    refine .inl ⟨rfl,?_⟩
    simp only [bulkCell,hneeds,if_true,String.toList_ofList]
  | false =>
    refine .inr ⟨rfl,?_⟩
    simp only [bulkCell,hneeds,Bool.false_eq_true,if_false]

theorem get_cases (row : ExportRow) (h : String) :
    (row.get h).getD "" = row.exported h ∨
      ∃ text, h ∉ row.keys ∧ objectPrototype h = some text ∧ row.get h = some text := by
  by_cases hh : h ∈ row.keys
  · exact .inl (get_eq_exported hh)
  · cases hproto : objectPrototype h with
    | none => exact .inl (by rw [get_of_notMem hh,hproto,exported_of_notMem hh]; rfl)
    | some text => exact .inr ⟨text,hh,rfl,(get_of_notMem hh).trans hproto⟩

theorem get_of_inherited {row : ExportRow} {h : String}
    (hinherited : h ∉ row.keys → objectPrototype h = none) :
    (row.get h).getD "" = row.exported h := by
  rcases get_cases row h with hget | ⟨text,hh,hproto,-⟩
  · exact hget
  · rw [hinherited hh] at hproto
    cases hproto

theorem bulkCell_cell (row : ExportRow) (h : String) :
    Cell bareLf (bulkCell row h).toList (row.exported h).toList := by
  rcases bulkCell_cases row h with ⟨-,hcell⟩ | ⟨hneeds,hcell⟩
  · exact .inl ⟨_,hcell ▸ encodes_quote _⟩
  · rw [hcell]
    rcases get_cases row h with hget | ⟨text,-,hproto,hget⟩
    · exact .inr (congrArg String.toList hget)
    · rw [hget]
      exact .inl ⟨_,encodes_plain (objectPrototype_plain hproto).1⟩

theorem readAs_bulkCell_iff {row : ExportRow} {h : String} :
    ReadAs bareLf (bulkCell row h).toList (row.exported h).toList ↔
      (h ∉ row.keys → objectPrototype h = none) ∧
      ('\r' ∈ (row.exported h).toList → needsQuotes (row.exported h) = true) := by
  constructor
  · rintro ⟨hencodes,hplain⟩
    refine ⟨fun hh => ?_,fun hcr => ?_⟩
    · cases hproto : objectPrototype h with
      | none => rfl
      | some text =>
        obtain ⟨hplaintext,hne⟩ := objectPrototype_plain hproto
        have hget : row.get h = some text := (get_of_notMem hh).trans hproto
        have htext : Encodes bareLf (bulkCell row h).toList text.toList := by
          rcases bulkCell_cases row h with ⟨-,hcell⟩ | ⟨-,hcell⟩
          · rw [hcell,hget]
            exact encodes_quote _
          · rw [hcell,hget]
            exact encodes_plain hplaintext
        have hempty := hencodes.unique htext
        rw [exported_of_notMem hh] at hempty
        exact absurd (String.toList_inj.mp hempty).symm hne
    · rcases get_cases row h with hget | ⟨text,hh,-,-⟩
      · rcases bulkCell_cases row h with ⟨hneeds,-⟩ | ⟨-,hcell⟩
        · rwa [hget] at hneeds
        · exact absurd (hplain (congrArg String.toList (hcell.trans hget))) (not_plain_of_carriage hcr)
      · rw [exported_of_notMem hh] at hcr
        simp at hcr
  · rintro ⟨hinherited,hcarriage⟩
    have hget := get_of_inherited hinherited
    rcases bulkCell_cases row h with ⟨-,hcell⟩ | ⟨hneeds,hcell⟩
    · rw [hget] at hcell
      rw [hcell]
      exact ⟨encodes_quote _,fun heq => absurd heq (quote_ne _)⟩
    · rw [hget] at hneeds hcell
      rw [hcell]
      have hplain : Plain (row.exported h).toList := by
        refine plain_of_unquoted hneeds fun hcr => ?_
        rw [hcarriage hcr] at hneeds
        cases hneeds
      exact ⟨encodes_plain hplain,fun _ => hplain⟩

def rowTable (columns : List String) (rows : List ExportRow) : List (List Field) :=
  rows.map fun row => columns.map fun h => (row.exported h).toList

def rowCells (columns : List String) (rows : List ExportRow) : List (List (List Char)) :=
  rows.map fun row => columns.map fun h => (bulkCell row h).toList

theorem rows_read_iff {columns : List String} (hcolumns : columns ≠ []) {rows : List ExportRow}
    (hrows : rows ≠ []) (records : List (List Field)) :
    readFrom true ⟨.start,[],[],records⟩ (join '\n' ((rowCells columns rows).map line)) =
        some (records ++ rowTable columns rows) ↔
      (∀ row ∈ rows, ∀ h ∈ columns,
        ReadAs true (bulkCell row h).toList (row.exported h).toList) ∧
      (columns.map fun h => (bulkCell (rows.getLast hrows) h).toList) ≠ [[]] := by
  have hcells : rowCells columns rows ≠ [] := by simpa [rowCells] using hrows
  have hne : ∀ es ∈ rowCells columns rows, es ≠ [] := by
    intro es hes
    obtain ⟨row,-,rfl⟩ := List.mem_map.mp hes
    simpa using hcolumns
  have hforall : ∀ {P : List Char → Field → Prop},
      List.Forall₂ (List.Forall₂ P) (rowCells columns rows) (rowTable columns rows) ↔
        ∀ row ∈ rows, ∀ h ∈ columns, P (bulkCell row h).toList (row.exported h).toList := by
    intro P
    rw [rowCells,rowTable,List.forall₂_map_left_iff,List.forall₂_map_right_iff,List.forall₂_same]
    refine forall₂_congr fun row _ => ?_
    rw [List.forall₂_map_left_iff,List.forall₂_map_right_iff,List.forall₂_same]
  have hlast : (rowCells columns rows).getLast hcells =
      columns.map fun h => (bulkCell (rows.getLast hrows) h).toList := List.getLast_map ..
  have htable : rowTable columns rows ≠ [] := by simpa [rowTable] using hrows
  rw [← hlast]
  constructor
  · intro h
    have hread := lines_of_table (hforall.mpr fun row _ h _ => bulkCell_cell row h) hne records h
    refine ⟨hforall.mp hread,fun hempty => ?_⟩
    have hencodes := hread.imp fun _ _ hline => hline.imp fun _ _ hcell => hcell.encodes
    rw [readFrom_lf_lines hencodes hne hcells records,if_pos hempty] at h
    have hlength := congrArg List.length (List.append_cancel_left (Option.some.inj h))
    have hpos := List.length_pos_iff.mpr htable
    rw [List.length_dropLast] at hlength
    omega
  · rintro ⟨hread,hempty⟩
    rw [readFrom_lf_lines (hforall.mpr fun row hrow h hh => (hread row hrow h hh).encodes) hne hcells
      records,if_neg hempty]

theorem bulkTable_cons (first : ExportRow) (rest : List ExportRow) :
    (bulkTable (first :: rest)).map (fun record => record.map String.toList) =
      (exportColumns (first :: rest)).map String.toList ::
        rowTable (exportColumns (first :: rest)) (first :: rest) := by
  rw [bulkTable,if_neg (List.cons_ne_nil _ _),List.map_cons,List.map_map,rowTable]
  congr 1
  refine List.map_congr_left fun row _ => ?_
  rw [Function.comp_apply,List.map_map]
  rfl

theorem bulkCell_eq_nil_iff {row : ExportRow} {h : String}
    (hread : ReadAs true (bulkCell row h).toList (row.exported h).toList) :
    (bulkCell row h).toList = [] ↔ row.exported h = "" := by
  have hget := get_of_inherited (readAs_bulkCell_iff.mp hread).1
  constructor
  · intro hnil
    have hencodes := hread.encodes
    rw [hnil] at hencodes
    have hempty := hencodes.unique (encodes_plain (v := []) (by simp [Plain]))
    exact String.toList_eq_nil_iff.mp hempty
  · intro hempty
    rcases bulkCell_cases row h with ⟨hneeds,-⟩ | ⟨-,hcell⟩
    · rw [hget,hempty] at hneeds
      exact absurd hneeds (by decide)
    · rw [hcell,hget,hempty]
      rfl

theorem lastLine_iff {columns : List String} {row : ExportRow}
    (hread : ∀ h ∈ columns, ReadAs true (bulkCell row h).toList (row.exported h).toList) :
    (columns.map fun h => (bulkCell row h).toList) ≠ [[]] ↔
      (columns.length = 1 → ∀ h ∈ columns, row.exported h ≠ "") := by
  constructor
  · intro hne hlength h hh hempty
    obtain ⟨h',rfl⟩ := List.length_eq_one_iff.mp hlength
    obtain rfl := List.mem_singleton.mp hh
    exact hne (congrArg (fun e => [e]) ((bulkCell_eq_nil_iff (hread h hh)).mpr hempty))
  · intro hlast heq
    have hlength : columns.length = 1 := by simpa using congrArg List.length heq
    obtain ⟨h,rfl⟩ := List.length_eq_one_iff.mp hlength
    have hh := List.mem_singleton_self h
    exact hlast rfl h hh ((bulkCell_eq_nil_iff (hread h hh)).mp (List.cons.inj heq).1)

theorem header_of_table {first : ExportRow} {rest : List ExportRow} (hcolumns : first.keys ≠ [])
    (h : read bareLf (csvBody (first :: rest)).toList =
      some ((bulkTable (first :: rest)).map fun record => record.map String.toList)) :
    bareLf = true ∧ (∀ h ∈ first.keys, Plain h.toList) ∧
      exportColumns (first :: rest) = first.keys ∧
      readFrom bareLf ⟨.start,[],[],[first.keys.map String.toList]⟩
        (join '\n' ((rowCells first.keys (first :: rest)).map line)) =
        some ([first.keys.map String.toList] ++ rowTable first.keys (first :: rest)) := by
  obtain ⟨extra,hextra,-,-⟩ := exportColumns_cons first rest
  have hkeys : first.keys.map String.toList ≠ [] := by simpa using hcolumns
  have hrows : (rowCells first.keys (first :: rest)).map line ≠ [] := by simp [rowCells]
  rw [Csv.read,toList_csvBody,bulkTable_cons,bulkCells,List.map_cons,← rowCells,join_cons _ _ hrows] at h
  have hline : List.Forall₂ (ReadAs bareLf) (first.keys.map String.toList)
      (first.keys.map String.toList) := by
    refine line_of_table (List.forall₂_same.mpr fun e _ => .inr rfl) hkeys
      (.inr ⟨join '\n' ((rowCells first.keys (first :: rest)).map line),rfl⟩) []
      (extra.map String.toList) [] (rowTable (exportColumns (first :: rest)) (first :: rest)) ?_
    rw [List.nil_append,List.nil_append,← List.map_append,← hextra]
    exact h
  have hplain : ∀ h ∈ first.keys, Plain h.toList := fun h hh =>
    (List.forall₂_same.mp hline h.toList (List.mem_map_of_mem hh)).plain rfl
  have hencodes := hline.imp fun _ _ hcell => hcell.encodes
  cases bareLf with
  | false =>
    obtain ⟨r,hr,hready,-⟩ := run_line hencodes hkeys [] []
    rw [readFrom_append hr,readFrom_cons_none (by rw [step_lf hready]; rfl)] at h
    cases h
  | true =>
    rw [← List.singleton_append (x := '\n'),← List.append_assoc,
      readFrom_append (run_record hencodes hkeys [] _ run_lf),List.nil_append] at h
    obtain ⟨more,hmore⟩ := (extends_of_readFrom h).records
    have hheader := (List.cons.inj hmore).1
    have hexact : exportColumns (first :: rest) = first.keys :=
      List.map_injective_iff.mpr (fun _ _ => String.toList_inj.mp) hheader
    rw [hexact] at h
    exact ⟨rfl,hplain,hexact,h⟩

/-- Without a column every line is empty, and the last of them is not read. -/
theorem not_read_of_no_columns {first : ExportRow} {rest : List ExportRow}
    (hcolumns : first.keys = []) :
    Csv.read bareLf (csvBody (first :: rest)).toList ≠
      some ((bulkTable (first :: rest)).map fun record => record.map String.toList) := by
  intro h
  have hlines : (bulkCells first (first :: rest)).map line =
      (List.replicate (rest.length+2) [[]]).map line := by
    rw [bulkCells,hcolumns,List.map_nil,List.map_cons,List.map_map,List.map_replicate,
      List.replicate_succ]
    congr 1
    exact List.eq_replicate_iff.mpr ⟨by simp,fun e he => by
      obtain ⟨row,-,rfl⟩ := List.mem_map.mp he
      rfl⟩
  rw [Csv.read,toList_csvBody,hlines,bulkTable_cons] at h
  cases bareLf with
  | false =>
    have hjoin : join '\n' ((List.replicate (rest.length+2) [[]]).map line) =
        '\n' :: join '\n' ((List.replicate (rest.length+1) [[]]).map line) := by
      rw [List.replicate_succ,List.map_cons,join_cons _ _ (by simp)]
      rfl
    rw [hjoin,readFrom_cons_none rfl] at h
    cases h
  | true =>
    have hencodes : List.Forall₂ (List.Forall₂ (Encodes true)) (List.replicate (rest.length+2) [[]])
        (List.replicate (rest.length+2) [[]]) :=
      List.forall₂_same.mpr fun es hes => by
        rw [List.eq_of_mem_replicate hes]
        exact .cons (encodes_plain (by simp [Plain])) .nil
    rw [readFrom_lf_lines hencodes (fun es hes => by simp [List.eq_of_mem_replicate hes])
      (by simp) [],if_pos (List.getLast_replicate ..)] at h
    have hlength := congrArg List.length (Option.some.inj h)
    simp [rowTable] at hlength

theorem decode_bulk_strict_iff (rows : List ExportRow) :
    decode false (csvBody rows) = some (bulkTable rows) ↔ rows = [] := by
  rw [decode_eq_some_iff]
  cases rows with
  | nil => exact iff_of_true rfl rfl
  | cons first rest =>
    refine iff_of_false (fun h => ?_) (List.cons_ne_nil _ _)
    by_cases hcolumns : first.keys = []
    · exact not_read_of_no_columns hcolumns h
    · exact absurd (header_of_table hcolumns h).1 (by simp)

theorem decode_bulk_lenient_iff (first : ExportRow) (rest : List ExportRow) :
    decode true (csvBody (first :: rest)) = some (bulkTable (first :: rest)) ↔
      BulkReadable first rest := by
  rw [decode_eq_some_iff]
  have hrows := List.cons_ne_nil first rest
  constructor
  · intro h
    have hcolumns : first.keys ≠ [] := fun hnil => not_read_of_no_columns hnil h
    obtain ⟨-,hplain,hexact,hread⟩ := header_of_table hcolumns h
    obtain ⟨hcells,hlast⟩ := (rows_read_iff hcolumns hrows _).mp hread
    obtain ⟨extra,hextra,hmem,-⟩ := exportColumns_cons first rest
    obtain rfl : extra = [] := by simpa [hexact] using hextra
    rw [List.append_nil] at hmem
    refine ⟨hcolumns,hmem,hplain,fun row hrow h hh => ?_,fun row hrow h hh => ?_,?_⟩
    · exact (readAs_bulkCell_iff.mp (hcells row hrow h hh)).1
    · exact (readAs_bulkCell_iff.mp (hcells row hrow h hh)).2
    · exact (lastLine_iff fun h hh => hcells _ (List.getLast_mem hrows) h hh).mp hlast
  · rintro ⟨hcolumns,hcovers,hplain,hinherited,hcarriage,hlast⟩
    have hcells : ∀ row ∈ first :: rest, ∀ h ∈ first.keys,
        ReadAs true (bulkCell row h).toList (row.exported h).toList := fun row hrow h hh =>
      readAs_bulkCell_iff.mpr ⟨hinherited row hrow h hh,hcarriage row hrow h hh⟩
    obtain ⟨extra,hextra,-,hnone⟩ := exportColumns_cons first rest
    rw [hnone hcovers,List.append_nil] at hextra
    have hkeys : first.keys.map String.toList ≠ [] := by simpa using hcolumns
    have hmap : (rowCells first.keys (first :: rest)).map line ≠ [] := by simp [rowCells]
    have hheader : List.Forall₂ (Encodes true) (first.keys.map String.toList)
        (first.keys.map String.toList) := by
      refine List.forall₂_same.mpr fun e he => ?_
      obtain ⟨h,hh,rfl⟩ := List.mem_map.mp he
      exact encodes_plain (hplain h hh)
    rw [Csv.read,toList_csvBody,bulkTable_cons,hextra,bulkCells,List.map_cons,← rowCells,
      join_cons _ _ hmap,← List.singleton_append (x := '\n'),← List.append_assoc,
      readFrom_append (run_record hheader hkeys [] _ run_lf)]
    exact (rows_read_iff hcolumns hrows _).mpr
      ⟨hcells,(lastLine_iff fun h hh => hcells _ (List.getLast_mem hrows) h hh).mpr hlast⟩

end BulkDecoding

section Exports

variable (runtime : ExportRuntime) (rows : List ExportRow) (transactions : List ListedTransaction)

/-- Both exports are read back as the tables they come from, and the stream is the body. -/
structure ExportsDecode (bareLf : Bool) : Prop where
  bulk : decode bareLf (buildBulkExportArtifact runtime .csv rows).body = some (bulkTable rows)
  listed : decode bareLf (buildTransactionsCsvExportBody transactions) =
    some (transactionTable transactions)
  stream : String.join (createTransactionsCsvExportStream transactions) =
    buildTransactionsCsvExportBody transactions

/-- By the letter of the format, with a carriage return in every line break, no bulk export
with a row is read back. With line feeds as breaks it depends on the header and the cells. -/
theorem exportsDecode_iff :
    (ExportsDecode runtime rows transactions false ↔ rows = []) ∧
    (ExportsDecode runtime rows transactions true ↔
      ∀ first rest, rows = first :: rest → BulkReadable first rest) := by
  have hiff : ∀ bareLf, ExportsDecode runtime rows transactions bareLf ↔
      decode bareLf (csvBody rows) = some (bulkTable rows) := fun bareLf =>
    ⟨fun h => h.bulk,fun h => ⟨h,decode_transactions bareLf transactions,join_stream transactions⟩⟩
  refine ⟨(hiff false).trans (decode_bulk_strict_iff rows),(hiff true).trans ?_⟩
  cases rows with
  | nil => exact iff_of_true rfl (by simp)
  | cons first rest =>
    rw [decode_bulk_lenient_iff]
    refine ⟨fun h first' rest' heq => ?_,fun h => h first rest rfl⟩
    obtain ⟨rfl,rfl⟩ := List.cons.inj heq
    exact h

def commaRow : ExportRow := ⟨[("a,b",some "1")],List.nodup_singleton _⟩

/-- Its header is read as two columns, and not at all with strict line breaks. -/
theorem not_exportsDecode_commaRow : ¬∃ runtime : ExportRuntime,
    ExportsDecode runtime [commaRow] [] false ∨ ExportsDecode runtime [commaRow] [] true := by
  have hstrict : decode false (csvBody [commaRow]) ≠ some (bulkTable [commaRow]) := by decide
  have hlenient : decode true (csvBody [commaRow]) ≠ some (bulkTable [commaRow]) := by decide
  rintro ⟨runtime,h | h⟩
  · exact hstrict h.bulk
  · exact hlenient h.bulk

end Exports

end YieldVault.Backend
