import Mathlib.Data.List.Basic
import Mathlib.Data.List.Forall2
import Mathlib.Data.List.Infix
import Mathlib.Tactic

/-! Reading comma-separated values. A field is plain, or between double quotes with every quote
in it doubled; a line break ends a record, and the last break of a text need not be there. -/
namespace Csv

section Reader

/-- Where the reader is: at the start of a field, in a plain or a quoted one, behind a quote
inside a quoted field, or behind the first half of a line break. -/
inductive Mode
  | start | plain | quoted | closing | cr
  deriving DecidableEq

abbrev Field := List Char

structure Reader where
  mode : Mode := .start
  field : Field := []
  record : List Field := []
  records : List (List Field) := []

def Reader.endField (r : Reader) : Reader :=
  { r with mode := .start, field := [], record := r.record ++ [r.field] }

def Reader.endRecord (r : Reader) : Reader := { records := r.records ++ [r.record ++ [r.field]] }

/-- One character more; `bareLf` says whether a line feed alone is a line break. -/
def step (bareLf : Bool) (r : Reader) (c : Char) : Option Reader :=
  match r.mode with
  | .quoted =>
    if c = '"' then some { r with mode := .closing } else some { r with field := r.field ++ [c] }
  | .cr => if c = '\n' then some r.endRecord else none
  | .start | .plain | .closing =>
    if c = ',' then some r.endField
    else if c = '\r' then some { r with mode := .cr }
    else if c = '\n' then if bareLf then some r.endRecord else none
    else if c = '"' then
      if r.mode = .start then some { r with mode := .quoted }
      else if r.mode = .closing then some { r with mode := .quoted, field := r.field ++ [c] }
      else none
    else if r.mode = .closing then none
    else some { r with mode := .plain, field := r.field ++ [c] }

def run (bareLf : Bool) (r : Reader) (text : List Char) : Option Reader :=
  text.foldlM (step bareLf) r

/-- The records at the end of the text, where a line break before the end adds none. -/
def Reader.finish (r : Reader) : Option (List (List Field)) :=
  match r.mode with
  | .start => some (if r.record = [] then r.records else r.records ++ [r.record ++ [r.field]])
  | .plain | .closing => some (r.records ++ [r.record ++ [r.field]])
  | .quoted | .cr => none

def readFrom (bareLf : Bool) (r : Reader) (text : List Char) : Option (List (List Field)) :=
  (run bareLf r text).bind Reader.finish

def read (bareLf : Bool) (text : List Char) : Option (List (List Field)) := readFrom bareLf {} text

@[simp] theorem run_nil (bareLf : Bool) (r : Reader) : run bareLf r [] = some r := rfl

@[simp] theorem run_cons (bareLf : Bool) (r : Reader) (c : Char) (text : List Char) :
    run bareLf r (c :: text) = (step bareLf r c).bind fun r => run bareLf r text := rfl

theorem run_append (bareLf : Bool) (r : Reader) (text more : List Char) :
    run bareLf r (text ++ more) = (run bareLf r text).bind fun r => run bareLf r more :=
  List.foldlM_append

theorem readFrom_append {bareLf : Bool} {r r' : Reader} {text : List Char}
    (h : run bareLf r text = some r') (more : List Char) :
    readFrom bareLf r (text ++ more) = readFrom bareLf r' more := by
  rw [readFrom,run_append,h,Option.bind_some,readFrom]

theorem readFrom_cons {bareLf : Bool} {r r' : Reader} {c : Char}
    (h : step bareLf r c = some r') (more : List Char) :
    readFrom bareLf r (c :: more) = readFrom bareLf r' more := by
  rw [readFrom,run_cons,h,Option.bind_some,readFrom]

theorem readFrom_cons_none {bareLf : Bool} {r : Reader} {c : Char} (h : step bareLf r c = none)
    (more : List Char) : readFrom bareLf r (c :: more) = none := by
  rw [readFrom,run_cons,h,Option.bind_none,Option.bind_none]

end Reader

section Writing

def special (c : Char) : Bool := c = ',' || c = '"' || c = '\r' || c = '\n'

def Plain (v : Field) : Prop := ∀ c ∈ v, special c = false

theorem plain_of_all {v : Field} (h : v.all (fun c => !special c) = true) : Plain v := by
  simpa [Plain] using h

theorem Plain.append {v w : Field} (hv : Plain v) (hw : Plain w) : Plain (v ++ w) :=
  fun c hc => (List.mem_append.mp hc).elim (hv c) (hw c)

def escape (v : Field) : List Char := v.flatMap fun c => if c = '"' then ['"','"'] else [c]

def quote (v : Field) : List Char := '"' :: (escape v ++ ['"'])

def join (mark : Char) (texts : List (List Char)) : List Char := [mark].intercalate texts

def line (fields : List (List Char)) : List Char := join ',' fields

variable {bareLf : Bool}

theorem quote_ne (v : Field) : quote v ≠ v := by
  have hlength : v.length ≤ (escape v).length := by
    induction v with
    | nil => simp
    | cons c v ih =>
      rw [escape,List.flatMap_cons,List.length_append,List.length_cons]
      have : 1 ≤ (if c = '"' then ['"','"'] else [c]).length := by split <;> simp
      unfold escape at ih
      omega
  intro heq
  have := congrArg List.length heq
  simp only [quote,List.length_cons,List.length_append,List.length_nil] at this
  omega

/-- The modes in which the field is complete if a mark or the end follows. -/
def Mode.Ready (m : Mode) : Prop := m = .start ∨ m = .plain ∨ m = .closing

theorem step_comma {r : Reader} (h : r.mode.Ready) : step bareLf r ',' = some r.endField := by
  obtain ⟨mode,field,record,records⟩ := r
  rcases h with h | h | h <;> obtain rfl := h <;> rfl

theorem step_cr {r : Reader} (h : r.mode.Ready) :
    step bareLf r '\r' = some { r with mode := .cr } := by
  obtain ⟨mode,field,record,records⟩ := r
  rcases h with h | h | h <;> obtain rfl := h <;> rfl

theorem step_lf {r : Reader} (h : r.mode.Ready) :
    step bareLf r '\n' = if bareLf then some r.endRecord else none := by
  obtain ⟨mode,field,record,records⟩ := r
  rcases h with h | h | h <;> obtain rfl := h <;> rfl

theorem run_crlf {r : Reader} (h : r.mode.Ready) :
    run bareLf r ['\r','\n'] = some r.endRecord := by
  rw [run_cons,step_cr h]
  rfl

theorem run_lf {r : Reader} (h : r.mode.Ready) : run true r ['\n'] = some r.endRecord := by
  rw [run_cons,step_lf h]
  rfl

theorem step_plain {r : Reader} (h : r.mode = .start ∨ r.mode = .plain) {c : Char}
    (hc : special c = false) :
    step bareLf r c = some { r with mode := .plain, field := r.field ++ [c] } := by
  simp only [special,Bool.or_eq_false_iff,decide_eq_false_iff_not] at hc
  obtain ⟨⟨⟨h₁,h₂⟩,h₃⟩,h₄⟩ := hc
  obtain ⟨mode,field,record,records⟩ := r
  rcases h with h | h <;> obtain rfl := h <;> simp [step,h₁,h₂,h₃,h₄]

theorem run_plain {v : Field} (hv : Plain v) {r : Reader} (h : r.mode = .start ∨ r.mode = .plain) :
    run bareLf r v =
      some { r with mode := if v = [] then r.mode else .plain, field := r.field ++ v } := by
  induction v generalizing r with
  | nil => simp
  | cons c v ih =>
    obtain ⟨hc,hrest⟩ := List.forall_mem_cons.mp hv
    rw [run_cons,step_plain h hc,Option.bind_some,ih hrest (.inr rfl)]
    simp

theorem run_escape (v : Field) {r : Reader} (h : r.mode = .quoted) :
    run bareLf r (escape v) = some { r with field := r.field ++ v } := by
  induction v generalizing r with
  | nil => simp [escape]
  | cons c v ih =>
    obtain ⟨mode,field,record,records⟩ := r
    obtain rfl : mode = .quoted := h
    have hstep : run bareLf ⟨.quoted,field,record,records⟩ (if c = '"' then ['"','"'] else [c]) =
        some ⟨.quoted,field ++ [c],record,records⟩ := by
      split
      · next hc => subst hc; rfl
      · next hc => simp [step,hc]
    rw [escape,List.flatMap_cons,run_append,hstep,Option.bind_some]
    exact (ih rfl).trans (by simp)

/-- Read at the start of a field, the text leaves the reader behind the field. -/
def Encodes (bareLf : Bool) (e : List Char) (v : Field) : Prop :=
  ∀ record records, ∃ mode : Mode, mode.Ready ∧ (mode = .start → e = []) ∧
    run bareLf ⟨.start,[],record,records⟩ e = some ⟨mode,v,record,records⟩

theorem encodes_plain {v : Field} (hv : Plain v) : Encodes bareLf v v := by
  intro record records
  refine ⟨if v = [] then .start else .plain,?_,?_,run_plain hv (.inl rfl)⟩
  · unfold Mode.Ready
    split <;> simp
  · intro h
    by_contra hne
    rw [if_neg hne] at h
    cases h

theorem encodes_quote (v : Field) : Encodes bareLf (quote v) v := by
  intro record records
  refine ⟨.closing,.inr (.inr rfl),by simp,?_⟩
  have hopen : step bareLf ⟨.start,[],record,records⟩ '"' = some ⟨.quoted,[],record,records⟩ := rfl
  rw [quote,run_cons,hopen,Option.bind_some,run_append,run_escape v rfl]
  rfl

end Writing

section Lines

variable {bareLf : Bool}

theorem join_singleton (mark : Char) (e : List Char) : join mark [e] = e := by
  simp [join,List.intercalate]

theorem join_cons (mark : Char) (e : List Char) {es : List (List Char)} (h : es ≠ []) :
    join mark (e :: es) = e ++ mark :: join mark es := by
  cases es with
  | nil => exact absurd rfl h
  | cons next es => simp [join,List.intercalate,List.intersperse]

theorem run_line {es : List (List Char)} {vs : List Field} (h : List.Forall₂ (Encodes bareLf) es vs)
    (hne : es ≠ []) (record : List Field) (records : List (List Field)) :
    ∃ r, run bareLf ⟨.start,[],record,records⟩ (line es) = some r ∧ r.mode.Ready ∧
      r.records = records ∧ r.record ++ [r.field] = record ++ vs ∧
      (r.mode = .start → es.getLast hne = []) := by
  induction h generalizing record with
  | nil => exact absurd rfl hne
  | @cons e v es vs he hes ih =>
    obtain ⟨mode,hready,hstart,hrun⟩ := he record records
    by_cases hes' : es = []
    · subst hes'
      cases hes
      rw [line,join_singleton]
      exact ⟨_,hrun,hready,rfl,rfl,hstart⟩
    · obtain ⟨r,hr,hready',hrecords,hrecord,hlast⟩ := ih hes' (record ++ [v])
      refine ⟨r,?_,hready',hrecords,?_,fun h => ?_⟩
      · have hcomma : step bareLf ⟨mode,v,record,records⟩ ',' = some ⟨.start,[],record ++ [v],records⟩ :=
          step_comma hready
        rw [line,join_cons ',' e hes',run_append,hrun,Option.bind_some,run_cons,hcomma,
          Option.bind_some]
        exact hr
      · rw [hrecord,List.append_assoc]
        rfl
      · rw [List.getLast_cons hes']
        exact hlast h

theorem readFrom_line {es : List (List Char)} {vs : List Field}
    (h : List.Forall₂ (Encodes bareLf) es vs) (hne : es ≠ []) (records : List (List Field)) :
    readFrom bareLf ⟨.start,[],[],records⟩ (line es) =
      some (if es = [[]] then records else records ++ [vs]) := by
  split
  · next hes => subst hes; rfl
  · next hes =>
    obtain ⟨⟨mode,field,record,records'⟩,hr,hready,hrecords,hrecord,hstart⟩ := run_line h hne [] records
    simp only [List.nil_append] at hrecords hrecord hstart
    rw [readFrom,hr,Option.bind_some,Reader.finish,hrecord,hrecords]
    rcases hready with hmode | hmode | hmode
    · -- behind a comma at the end of the line
      have hrecord' : record ≠ [] := by
        rintro rfl
        have hlen := h.length_eq
        rw [← hrecord,List.nil_append,List.length_singleton] at hlen
        obtain ⟨e,rfl⟩ := List.length_eq_one_iff.mp hlen
        exact hes (congrArg (fun e => [e]) (hstart hmode))
      obtain rfl : mode = .start := hmode
      simp only [if_neg hrecord']
    · obtain rfl : mode = .plain := hmode
      rfl
    · obtain rfl : mode = .closing := hmode
      rfl

theorem run_record {es : List (List Char)} {vs : List Field} (h : List.Forall₂ (Encodes bareLf) es vs)
    (hne : es ≠ []) (records : List (List Field)) (mark : List Char)
    (hmark : ∀ {r : Reader}, r.mode.Ready → run bareLf r mark = some r.endRecord) :
    run bareLf ⟨.start,[],[],records⟩ (line es ++ mark) = some ⟨.start,[],[],records ++ [vs]⟩ := by
  obtain ⟨r,hr,hready,hrecords,hrecord,-⟩ := run_line h hne [] records
  rw [run_append,hr,Option.bind_some,hmark hready,Reader.endRecord,hrecords,hrecord,List.nil_append]

theorem read_crlf_lines {lines : List (List (List Char))} {table : List (List Field)}
    (h : List.Forall₂ (List.Forall₂ (Encodes bareLf)) lines table) (hne : ∀ es ∈ lines, es ≠ []) :
    read bareLf (lines.flatMap fun es => line es ++ ['\r','\n']) = some table := by
  have hrun : ∀ records, run bareLf ⟨.start,[],[],records⟩
      (lines.flatMap fun es => line es ++ ['\r','\n']) = some ⟨.start,[],[],records ++ table⟩ := by
    induction h with
    | nil => simp
    | @cons es vs lines table hes _ ih =>
      obtain ⟨hes',hlines⟩ := List.forall_mem_cons.mp hne
      intro records
      rw [List.flatMap_cons,run_append,run_record hes hes' records _ run_crlf,Option.bind_some,
        ih hlines]
      simp
  rw [read,readFrom,hrun]
  rfl

/-- Lines with line feeds between them are read back, except for a last line without a
character. -/
theorem readFrom_lf_lines {lines : List (List (List Char))} {table : List (List Field)}
    (h : List.Forall₂ (List.Forall₂ (Encodes true)) lines table) (hne : ∀ es ∈ lines, es ≠ [])
    (hlines : lines ≠ []) (records : List (List Field)) :
    readFrom true ⟨.start,[],[],records⟩ (join '\n' (lines.map line)) =
      some (records ++ if lines.getLast hlines = [[]] then table.dropLast else table) := by
  induction h generalizing records with
  | nil => exact absurd rfl hlines
  | @cons es vs lines table hes hrest ih =>
    obtain ⟨hes',hlines'⟩ := List.forall_mem_cons.mp hne
    by_cases hlast : lines = []
    · subst hlast
      cases hrest
      rw [List.map_singleton,join_singleton,List.getLast_singleton,readFrom_line hes hes']
      split
      · simp
      · rfl
    · have hmap : lines.map line ≠ [] := by simpa using hlast
      rw [List.map_cons,join_cons _ _ hmap,List.getLast_cons hlast,← List.singleton_append,
        ← List.append_assoc,readFrom_append (run_record hes hes' records _ run_lf),
        ih hlines' hlast,List.append_assoc]
      congr 2
      split
      · have htable : table ≠ [] := by
          rintro rfl
          cases hrest
          exact hlast rfl
        rw [List.singleton_append,List.dropLast_cons_of_ne_nil htable]
      · rfl

end Lines

section Determinism

variable {bareLf : Bool}

/-- The table has the value next in the record that the reader is in. -/
def FieldAt (r : Reader) (table : List (List Field)) (v : Field) : Prop :=
  ∃ fs rest, table = r.records ++ (r.record ++ v :: fs) :: rest

/-- What the reader has is at the beginning of the table. -/
structure Extends (r : Reader) (table : List (List Field)) : Prop where
  records : ∃ rest, table = r.records ++ rest
  field : r.mode ≠ .start ∨ r.record ≠ [] → ∃ v, FieldAt r table v ∧ r.field <+: v

theorem FieldAt.unique {r : Reader} {table : List (List Field)} {v w : Field}
    (h : FieldAt r table v) (h' : FieldAt r table w) : v = w := by
  obtain ⟨fs,rest,rfl⟩ := h
  obtain ⟨fs',rest',heq⟩ := h'
  have hrecord := (List.cons.inj (List.append_cancel_left heq)).1
  exact (List.cons.inj (List.append_cancel_left hrecord)).1

theorem step_cases {r r' : Reader} {c : Char} (h : step bareLf r c = some r') :
    (r'.mode ≠ .start ∧ r'.record = r.record ∧ r'.records = r.records ∧ r.field <+: r'.field) ∨
      r' = r.endField ∨ r' = r.endRecord := by
  obtain ⟨mode,field,record,records⟩ := r
  cases mode <;> simp only [step,reduceCtorEq,if_false,if_true] at h <;> split_ifs at h
  all_goals first
    | exact .inr (.inl (Option.some.inj h).symm)
    | exact .inr (.inr (Option.some.inj h).symm)
    | obtain rfl := Option.some.inj h
      exact .inl ⟨by simp,rfl,rfl,by simp⟩

theorem extends_endField {r : Reader} {table : List (List Field)} (h : Extends r.endField table) :
    FieldAt r table r.field := by
  obtain ⟨v,⟨fs,rest,htable⟩,-⟩ := h.field (.inr (by simp [Reader.endField]))
  exact ⟨v :: fs,rest,by simpa [Reader.endField] using htable⟩

theorem extends_endRecord {r : Reader} {table : List (List Field)} (h : Extends r.endRecord table) :
    FieldAt r table r.field := by
  obtain ⟨rest,htable⟩ := h.records
  exact ⟨[],rest,by simpa [Reader.endRecord] using htable⟩

theorem FieldAt.extends {r : Reader} {table : List (List Field)} (h : FieldAt r table r.field) :
    Extends r table := by
  obtain ⟨fs,rest,htable⟩ := h
  exact ⟨⟨_,htable⟩,fun _ => ⟨r.field,⟨fs,rest,htable⟩,List.prefix_rfl⟩⟩

theorem extends_of_step {r r' : Reader} {c : Char} {table : List (List Field)}
    (h : step bareLf r c = some r') (hr' : Extends r' table) : Extends r table := by
  rcases step_cases h with ⟨hmode,hrecord,hrecords,hfield⟩ | rfl | rfl
  · obtain ⟨rest,htable⟩ := hr'.records
    obtain ⟨v,hv,hpre⟩ := hr'.field (.inl hmode)
    refine ⟨⟨rest,hrecords ▸ htable⟩,fun _ => ⟨v,?_,hfield.trans hpre⟩⟩
    unfold FieldAt at hv ⊢
    rwa [hrecord,hrecords] at hv
  · exact (extends_endField hr').extends
  · exact (extends_endRecord hr').extends

theorem extends_of_readFrom {r : Reader} {text : List Char} {table : List (List Field)}
    (h : readFrom bareLf r text = some table) : Extends r table := by
  induction text generalizing r with
  | nil =>
    obtain ⟨mode,field,record,records⟩ := r
    rw [readFrom,run_nil,Option.bind_some,Reader.finish] at h
    cases mode with
    | start =>
      dsimp only at h
      split at h
      · next hrecord =>
        obtain rfl := Option.some.inj h
        exact ⟨⟨[],(List.append_nil _).symm⟩,fun hne => hne.elim (absurd rfl) (absurd hrecord)⟩
      · exact FieldAt.extends ⟨[],[],(Option.some.inj h).symm⟩
    | plain => exact FieldAt.extends ⟨[],[],(Option.some.inj h).symm⟩
    | closing => exact FieldAt.extends ⟨[],[],(Option.some.inj h).symm⟩
    | quoted => cases h
    | cr => cases h
  | cons c text ih =>
    cases hstep : step bareLf r c with
    | none => rw [readFrom_cons_none hstep] at h; cases h
    | some r' =>
      rw [readFrom_cons hstep] at h
      exact extends_of_step hstep (ih h)

def Ending (text : List Char) : Prop :=
  text = [] ∨ ∃ c rest, text = c :: rest ∧ (c = ',' ∨ c = '\r' ∨ c = '\n')

theorem fieldAt_of_ending {r : Reader} (hr : r.mode.Ready) {text : List Char} (htext : Ending text)
    (hne : text ≠ [] ∨ r.mode ≠ .start ∨ r.record ≠ []) {table : List (List Field)}
    (h : readFrom bareLf r text = some table) : FieldAt r table r.field := by
  rcases htext with rfl | ⟨c,rest,rfl,hc⟩
  · obtain ⟨mode,field,record,records⟩ := r
    rw [readFrom,run_nil,Option.bind_some,Reader.finish] at h
    rcases hr with hmode | hmode | hmode <;> obtain rfl := hmode
    · have hrecord : record ≠ [] := by simpa using hne
      simp only [if_neg hrecord] at h
      exact ⟨[],[],(Option.some.inj h).symm⟩
    · exact ⟨[],[],(Option.some.inj h).symm⟩
    · exact ⟨[],[],(Option.some.inj h).symm⟩
  · rcases hc with rfl | rfl | rfl
    · rw [readFrom_cons (step_comma hr)] at h
      exact extends_endField (extends_of_readFrom h)
    · rw [readFrom_cons (step_cr hr)] at h
      cases rest with
      | nil => cases h
      | cons d rest =>
        by_cases hd : d = '\n'
        · have hend : step bareLf { r with mode := .cr } d = some r.endRecord := by
            simp [step,hd,Reader.endRecord]
          rw [readFrom_cons hend] at h
          exact extends_endRecord (extends_of_readFrom h)
        · rw [readFrom_cons_none (by simp [step,hd])] at h
          cases h
    · cases bareLf with
      | false =>
        rw [readFrom_cons_none (by rw [step_lf hr]; rfl)] at h
        cases h
      | true =>
        have hend : step true r '\n' = some r.endRecord := by
          rw [step_lf hr]
          rfl
        rw [readFrom_cons hend] at h
        exact extends_endRecord (extends_of_readFrom h)

/-- The quotes at the front of a text are read as fewer than they are. -/
theorem not_fieldAt_of_quotes {rest : List Char} (hrest : Ending rest) {record : List Field}
    {records table : List (List Field)} (s : List Char) (j : ℕ)
    (h : readFrom bareLf ⟨.quoted,List.replicate j '"',record,records⟩ (s ++ rest) = some table) :
    ¬FieldAt ⟨.quoted,List.replicate j '"',record,records⟩ table (List.replicate (2*j+1) '"' ++ s) := by
  intro hat
  -- the first character that is not a quote would come too early
  have hother : ∀ {c : Char} {more : List Char}, c ≠ '"' → readFrom bareLf
      ⟨.quoted,List.replicate j '"',record,records⟩ (c :: more) ≠ some table := by
    intro c more hc hread
    have hstep : step bareLf ⟨.quoted,List.replicate j '"',record,records⟩ c =
        some ⟨.quoted,List.replicate j '"' ++ [c],record,records⟩ := by simp [step,hc]
    rw [readFrom_cons hstep] at hread
    obtain ⟨v,hv,hpre⟩ := (extends_of_readFrom hread).field (.inl (by simp))
    obtain rfl := FieldAt.unique hat hv
    rw [show 2*j+1 = j+(j+1) by ring,List.replicate_add,List.append_assoc,
      List.prefix_append_right_inj,List.replicate_succ,List.cons_append,List.cons_prefix_cons] at hpre
    exact hc hpre.1
  have hshort : ∀ {s : List Char}, List.replicate (2*j+1) '"' ++ s ≠ List.replicate j '"' := by
    intro s heq
    have := congrArg List.length heq
    simp only [List.length_append,List.length_replicate] at this
    omega
  have hclosing : step bareLf ⟨.quoted,List.replicate j '"',record,records⟩ '"' =
      some ⟨.closing,List.replicate j '"',record,records⟩ := rfl
  match s with
  | [] =>
    rw [List.nil_append] at h
    rcases hrest with rfl | ⟨c,rest,rfl,hc⟩
    · cases h
    · exact hother (by rcases hc with rfl | rfl | rfl <;> decide) h
  | c :: s =>
    by_cases hc : c = '"'
    · subst hc
      rw [List.cons_append,readFrom_cons hclosing] at h
      by_cases hs : Ending (s ++ rest)
      · have hfield := fieldAt_of_ending (.inr (.inr rfl)) hs (.inr (.inl (by simp))) h
        exact hshort (FieldAt.unique hat hfield)
      · match s with
        | [] => exact hs hrest
        | d :: s =>
          by_cases hd : d = '"'
          · subst hd
            have hopen : step bareLf ⟨.closing,List.replicate j '"',record,records⟩ '"' =
                some ⟨.quoted,List.replicate (j+1) '"',record,records⟩ := by
              rw [List.replicate_succ']
              rfl
            rw [List.cons_append,readFrom_cons hopen] at h
            refine not_fieldAt_of_quotes hrest s (j+1) h ?_
            have hquotes : List.replicate (2*(j+1)+1) '"' ++ s =
                List.replicate (2*j+1) '"' ++ '"' :: '"' :: s := by
              rw [show 2*(j+1)+1 = 2*j+1+2 by ring,List.replicate_add,List.append_assoc]
              rfl
            rw [hquotes]
            exact hat
          · have hmark : ¬(d = ',' ∨ d = '\r' ∨ d = '\n') :=
              fun hmark => hs (.inr ⟨d,s ++ rest,rfl,hmark⟩)
            rw [not_or,not_or] at hmark
            have hnone : step bareLf ⟨.closing,List.replicate j '"',record,records⟩ d = none := by
              simp [step,hd,hmark]
            rw [List.cons_append,readFrom_cons_none hnone] at h
            cases h
    · exact hother hc h

theorem plain_or_first_special (v : Field) :
    Plain v ∨ ∃ p c s, v = p ++ c :: s ∧ Plain p ∧ special c = true := by
  induction v with
  | nil => exact .inl (by simp [Plain])
  | cons a v ih =>
    by_cases ha : special a = true
    · exact .inr ⟨[],a,v,rfl,by simp [Plain],ha⟩
    · have ha : special a = false := by simpa using ha
      rcases ih with hv | ⟨p,c,s,rfl,hp,hc⟩
      · exact .inl (List.forall_mem_cons.mpr ⟨ha,hv⟩)
      · exact .inr ⟨a :: p,c,s,rfl,List.forall_mem_cons.mpr ⟨ha,hp⟩,hc⟩

theorem plain_of_fieldAt {v : Field} {rest : List Char} (hrest : Ending rest) {record : List Field}
    {records table : List (List Field)}
    (h : readFrom bareLf ⟨.start,[],record,records⟩ (v ++ rest) = some table)
    (hat : FieldAt ⟨.start,[],record,records⟩ table v) : Plain v := by
  rcases plain_or_first_special v with hv | ⟨p,c,s,rfl,hp,hc⟩
  · exact hv
  exfalso
  have hready : (if p = [] then Mode.start else Mode.plain).Ready := by
    unfold Mode.Ready
    split <;> simp
  rw [List.append_assoc,readFrom_append (run_plain hp (.inl rfl)),List.nil_append] at h
  by_cases hquote : c = '"'
  · subst hquote
    by_cases hp' : p = []
    · subst hp'
      have hopen : step bareLf ⟨.start,[],record,records⟩ '"' = some ⟨.quoted,[],record,records⟩ := rfl
      exact not_fieldAt_of_quotes hrest s 0 ((readFrom_cons hopen _).symm.trans h) hat
    · simp only [if_neg hp'] at h
      rw [List.cons_append,readFrom_cons_none rfl] at h
      cases h
  · have hmark : c = ',' ∨ c = '\r' ∨ c = '\n' := by
      simp only [special,Bool.or_eq_true,decide_eq_true_eq] at hc
      tauto
    have hfield := fieldAt_of_ending (r := ⟨_,p,record,records⟩) hready
      (.inr ⟨c,s ++ rest,rfl,hmark⟩) (.inl (by simp)) h
    have := congrArg List.length (FieldAt.unique hat hfield)
    simp only [List.length_append,List.length_cons] at this
    omega

end Determinism

section Tables

variable {bareLf : Bool}

/-- A text for some field, or the field itself put down without quotes. -/
def Cell (bareLf : Bool) (e : List Char) (v : Field) : Prop := (∃ w, Encodes bareLf e w) ∨ e = v

structure ReadAs (bareLf : Bool) (e : List Char) (v : Field) : Prop where
  encodes : Encodes bareLf e v
  plain : e = v → Plain v

theorem Encodes.unique {e : List Char} {v w : Field} (h : Encodes bareLf e v)
    (h' : Encodes bareLf e w) : v = w := by
  obtain ⟨_,-,-,hv⟩ := h [] []
  obtain ⟨_,-,-,hw⟩ := h' [] []
  exact (Reader.mk.inj (Option.some.inj (hv.symm.trans hw))).2.1

theorem readAs_of_fieldAt {e rest : List Char} {v : Field} (hcell : Cell bareLf e v)
    (hrest : Ending rest) {record : List Field} {records table : List (List Field)}
    (h : readFrom bareLf ⟨.start,[],record,records⟩ (e ++ rest) = some table)
    (hat : FieldAt ⟨.start,[],record,records⟩ table v) : ReadAs bareLf e v := by
  rcases hcell with ⟨w,hw⟩ | rfl
  · obtain ⟨mode,hready,hstart,hrun⟩ := hw record records
    have hread := (readFrom_append hrun rest).symm.trans h
    have hne : rest ≠ [] ∨ mode ≠ .start ∨ record ≠ [] := by
      by_contra hempty
      simp only [not_or,not_not] at hempty
      obtain ⟨rfl,rfl,rfl⟩ := hempty
      obtain rfl := hstart rfl
      obtain rfl := Option.some.inj h
      obtain ⟨fs,more,htable⟩ := hat
      simp at htable
    have hfield : FieldAt ⟨.start,[],record,records⟩ table w := fieldAt_of_ending hready hrest hne hread
    obtain rfl := FieldAt.unique hat hfield
    exact ⟨hw,fun he => plain_of_fieldAt hrest (he ▸ h) hat⟩
  · have hplain := plain_of_fieldAt hrest h hat
    exact ⟨encodes_plain hplain,fun _ => hplain⟩

/-- If a line is read as some fields, each of its cells is read as its field. -/
theorem line_of_table {es : List (List Char)} {vs : List Field}
    (hes : List.Forall₂ (Cell bareLf) es vs) (hne : es ≠ []) {rest : List Char}
    (hrest : rest = [] ∨ ∃ more, rest = '\n' :: more) (record fs : List Field)
    (records more : List (List Field))
    (h : readFrom bareLf ⟨.start,[],record,records⟩ (line es ++ rest) =
      some (records ++ (record ++ vs ++ fs) :: more)) :
    List.Forall₂ (ReadAs bareLf) es vs := by
  induction hes generalizing record with
  | nil => exact absurd rfl hne
  | @cons e v es vs he hes ih =>
    have hat : FieldAt ⟨.start,[],record,records⟩ (records ++ (record ++ v :: vs ++ fs) :: more) v :=
      ⟨vs ++ fs,more,by simp⟩
    by_cases hes' : es = []
    · subst hes'
      cases hes
      rw [line,join_singleton] at h
      have hending : Ending rest := by
        rcases hrest with rfl | ⟨more,rfl⟩
        · exact .inl rfl
        · exact .inr ⟨_,_,rfl,.inr (.inr rfl)⟩
      exact .cons (readAs_of_fieldAt he hending h hat) .nil
    · rw [line,join_cons ',' e hes',List.append_assoc,List.cons_append] at h
      have hread := readAs_of_fieldAt he (.inr ⟨_,_,rfl,.inl rfl⟩) h hat
      refine .cons hread (ih hes' (record ++ [v]) ?_)
      obtain ⟨mode,hready,-,hrun⟩ := hread.encodes record records
      rw [readFrom_append hrun,readFrom_cons (step_comma hready)] at h
      rw [line,← List.append_cons]
      exact h

/-- If lines with line feeds between them are read as a table, so is each of their cells. -/
theorem lines_of_table {lines : List (List (List Char))} {table : List (List Field)}
    (hlines : List.Forall₂ (List.Forall₂ (Cell true)) lines table) (hne : ∀ es ∈ lines, es ≠ [])
    (records : List (List Field))
    (h : readFrom true ⟨.start,[],[],records⟩ (join '\n' (lines.map line)) =
      some (records ++ table)) :
    List.Forall₂ (List.Forall₂ (ReadAs true)) lines table := by
  induction hlines generalizing records with
  | nil => exact .nil
  | @cons es vs lines table hes hrest ih =>
    obtain ⟨hes',hlines'⟩ := List.forall_mem_cons.mp hne
    by_cases hlast : lines = []
    · subst hlast
      cases hrest
      rw [List.map_singleton,join_singleton,← List.append_nil (line es)] at h
      refine .cons (line_of_table hes hes' (.inl rfl) [] [] records [] ?_) .nil
      simpa using h
    · have hmap : lines.map line ≠ [] := by simpa using hlast
      rw [List.map_cons,join_cons _ _ hmap] at h
      have hline : List.Forall₂ (ReadAs true) es vs := by
        refine line_of_table hes hes' (.inr ⟨join '\n' (lines.map line),rfl⟩) [] [] records table ?_
        simpa using h
      refine .cons hline (ih hlines' (records ++ [vs]) ?_)
      have hencodes := hline.imp fun _ _ h => h.encodes
      rw [← List.singleton_append,← List.append_assoc,
        readFrom_append (run_record hencodes hes' records _ run_lf)] at h
      rw [h,List.append_assoc]
      rfl

end Tables

section Texts

def decode (bareLf : Bool) (text : String) : Option (List (List String)) :=
  (read bareLf text.toList).map fun table => table.map fun record => record.map String.ofList

theorem decode_eq_some_iff {bareLf : Bool} {text : String} {table : List (List String)} :
    decode bareLf text = some table ↔
      read bareLf text.toList = some (table.map fun record => record.map String.toList) := by
  unfold decode
  rw [Option.map_eq_some_iff]
  constructor
  · rintro ⟨records,hread,rfl⟩
    simp [hread,Function.comp_def]
  · intro h
    exact ⟨_,h,by simp [Function.comp_def]⟩

example : decode false "a,\"b\"\"c,\r\nd\"\r\n,e\r\n" = some [["a","b\"c,\r\nd"],["","e"]] := by decide

end Texts

end Csv
