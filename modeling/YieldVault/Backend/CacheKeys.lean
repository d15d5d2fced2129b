import YieldVault.Texts
import YieldVault.Utf16
import YieldVault.Backend.ResponseCache

/-! Which requests have the same cache key. -/
namespace YieldVault.Backend

open Utf16

section Sorting

theorem utf16Units_injective : Function.Injective utf16Units := by
  intro text text' h
  exact String.toList_inj.mp (flatMap_charUnits_inj h)

theorem sortTexts_perm (texts : List String) : (sortTexts texts).Perm texts :=
  List.perm_insertionSort _ _

theorem sortTexts_sorted (texts : List String) :
    (sortTexts texts).Pairwise fun a b => utf16Units a ≤ utf16Units b := by
  have htotal : Std.Total fun a b => utf16Units a ≤ utf16Units b := ⟨fun a b => le_total _ _⟩
  have htrans : IsTrans String fun a b => utf16Units a ≤ utf16Units b :=
    ⟨fun a b c hab hbc => le_trans hab hbc⟩
  exact List.pairwise_insertionSort _ _

theorem sorted_unique {texts texts' : List String} (hperm : texts.Perm texts')
    (h : texts.Pairwise fun a b => utf16Units a ≤ utf16Units b)
    (h' : texts'.Pairwise fun a b => utf16Units a ≤ utf16Units b) : texts = texts' := by
  have hanti : Std.Antisymm fun a b => utf16Units a ≤ utf16Units b :=
    ⟨fun a b hab hba => utf16Units_injective (le_antisymm hab hba)⟩
  exact hperm.eq_of_pairwise (fun a b _ _ => hanti.antisymm a b) h h'

end Sorting

section Requests

def QueryValue.elements : QueryValue → List QueryValue
  | .list values => values
  | value => [value]

/-- A parameter's values; of one that is not there, none. -/
def CacheRequest.valuesOf (req : CacheRequest) (name : String) : List QueryValue :=
  ((req.query.lookup name).map (·.elements)).getD []

/-- Two requests ask for the same: the path and, for every parameter, the values with their
multiplicity. -/
def SameData (r r' : CacheRequest) : Prop :=
  r.fullPath = r'.fullPath ∧ ∀ name, (r.valuesOf name).Perm (r'.valuesOf name)

def SameKey (r r' : CacheRequest) : Prop :=
  ∃ key, buildCacheKey r = some key ∧ buildCacheKey r' = some key

structure CacheRequest.Parsed (req : CacheRequest) : Prop where
  get : req.method = "GET"
  slash : ∃ rest, req.path.toList = '/' :: rest
  distinct : (req.query.map (·.1)).Nodup
  valued : ∀ x ∈ req.query, x.1 ≠ "" ∧ x.2.elements ≠ []

/-- What stands between the parts of a key. -/
def separators : List Char := [',','=','&',':']

/-- Requests behind some mount points, with the separators that may stand in their paths, in
the names of their parameters and in the values, and whether values may be nested. -/
structure RequestClass where
  mounts : Set String
  mounted : mounts.Nonempty
  nested : Prop
  inPaths : Set Char
  inNames : Set Char
  inValues : Set Char

/-- All other characters are free. -/
def Writes (allowed : Set Char) (text : String) : Prop :=
  ∀ c ∈ text.toList, c ∈ separators → c ∈ allowed

structure RequestClass.Admits (cls : RequestClass) (req : CacheRequest) : Prop where
  parsed : req.Parsed
  mount : req.baseUrl ∈ cls.mounts
  path : Writes cls.inPaths req.path
  names : ∀ x ∈ req.query, Writes cls.inNames x.1
  values : ∀ x ∈ req.query, ∀ text, QueryValue.text text ∈ x.2.elements → Writes cls.inValues text
  flat : ¬ cls.nested → ∀ x ∈ req.query, ∀ value ∈ x.2.elements, ∃ text, value = .text text

theorem toTexts_eq (values : List QueryValue) :
    QueryValue.toTexts values = values.map QueryValue.toText := by
  induction values with
  | nil => rfl
  | cons value values ih => rw [QueryValue.toTexts,ih,List.map_cons]

theorem someThrows_eq (values : List QueryValue) :
    QueryValue.someThrows values = values.any QueryValue.throws := by
  induction values with
  | nil => rfl
  | cons value values ih => rw [QueryValue.someThrows,ih,List.any_cons]

theorem values_eq (v : QueryValue) : v.values = sortTexts (v.elements.map QueryValue.toText) := by
  cases v with
  | list values => rw [QueryValue.values,toTexts_eq,QueryValue.elements]
  | text value => rfl
  | object fields => rfl

def CacheRequest.textsOf (req : CacheRequest) (name : String) : List String :=
  ((req.query.lookup name).map (·.values)).getD []

def CacheRequest.entries (req : CacheRequest) : List (String × List String) :=
  (sortTexts (req.query.map (·.1))).map fun k => (k,req.textsOf k)

def keyPair (x : String × List String) : List Char × List Char :=
  (x.1.toList,(",".intercalate x.2).toList)

def keyRest : List (List Char × List Char) → List Char
  | [] => []
  | p :: pairs => ':' :: Texts.joinPairs '=' '&' (p :: pairs)

theorem toList_joined (entries : List (String × List String)) :
    ("&".intercalate (entries.map fun x => x.1 ++ "=" ++ ",".intercalate x.2)).toList =
      Texts.joinPairs '=' '&' (entries.map keyPair) := by
  rw [String.toList_intercalate,Texts.joinPairs,List.map_map,List.map_map]
  exact congrArg _ (List.map_congr_left fun x _ => by simp [keyPair])

variable {cls : RequestClass} {req r r' : CacheRequest}

theorem buildCacheKey_eq (h : (req.query.any fun x => x.2.throws) = false) :
    buildCacheKey req = some (req.method ++ ":" ++
      String.ofList (req.path.toList ++ keyRest (req.entries.map keyPair))) := by
  unfold buildCacheKey
  rw [h,if_neg Bool.false_ne_true]
  split
  · next hkeys => simp [CacheRequest.entries,hkeys,keyRest]
  · next hkeys =>
    have hjoined := toList_joined req.entries
    have hrest : keyRest (req.entries.map keyPair) =
        ':' :: Texts.joinPairs '=' '&' (req.entries.map keyPair) := by
      cases hentries : req.entries with
      | nil => exact absurd (List.map_eq_nil_iff.mp hentries) hkeys
      | cons x xs => rfl
    rw [hrest,← hjoined,CacheRequest.entries,List.map_map]
    refine congrArg some (String.toList_inj.mp ?_)
    simp [CacheRequest.textsOf,Function.comp_def]

theorem lookup_cases (req : CacheRequest) (name : String) :
    (name ∉ req.query.map (·.1) ∧ req.query.lookup name = none) ∨
      ∃ x ∈ req.query, x.1 = name ∧ req.query.lookup name = some x.2 := by
  cases h : req.query.lookup name with
  | none =>
    refine Or.inl ⟨fun hmem => ?_,rfl⟩
    obtain ⟨x,hx,rfl⟩ := List.mem_map.mp hmem
    have hne := List.lookup_eq_none_iff.mp h x hx
    simp at hne
  | some v =>
    obtain ⟨before,after,hquery,-⟩ := List.lookup_eq_some_iff.mp h
    exact Or.inr ⟨(name,v),by rw [hquery]; simp,rfl,rfl⟩

theorem textsOf_eq (req : CacheRequest) (name : String) :
    req.textsOf name = sortTexts ((req.valuesOf name).map QueryValue.toText) := by
  unfold CacheRequest.textsOf CacheRequest.valuesOf
  cases req.query.lookup name with
  | none => rfl
  | some v => exact values_eq v

theorem textsOf_sorted (req : CacheRequest) (name : String) :
    (req.textsOf name).Pairwise fun a b => utf16Units a ≤ utf16Units b := by
  rw [textsOf_eq]
  exact sortTexts_sorted _

theorem textsOf_ne_nil_iff {name : String} :
    req.textsOf name ≠ [] ↔ req.valuesOf name ≠ [] := by
  rw [textsOf_eq,not_iff_not,← List.length_eq_zero_iff,(sortTexts_perm _).length_eq,
    List.length_map,List.length_eq_zero_iff]

theorem mem_names_iff (h : req.Parsed) {name : String} :
    name ∈ req.query.map (·.1) ↔ req.textsOf name ≠ [] := by
  rw [textsOf_ne_nil_iff,CacheRequest.valuesOf]
  rcases lookup_cases req name with ⟨hnot,hnone⟩ | ⟨x,hx,rfl,hvalue⟩
  · simp [hnot,hnone]
  · rw [hvalue]
    exact iff_of_true (List.mem_map_of_mem hx) (h.valued x hx).2

theorem mem_entries {x : String × List String} (h : req.Parsed) :
    x ∈ req.entries ↔ x.2 = req.textsOf x.1 ∧ x.2 ≠ [] := by
  rw [CacheRequest.entries,List.mem_map]
  constructor
  · rintro ⟨name,hname,rfl⟩
    exact ⟨rfl,(mem_names_iff h).mp ((sortTexts_perm _).mem_iff.mp hname)⟩
  · rintro ⟨hvalues,hne⟩
    rw [hvalues] at hne
    exact ⟨x.1,(sortTexts_perm _).mem_iff.mpr ((mem_names_iff h).mpr hne),Prod.ext rfl hvalues.symm⟩

/-- The parameters of the key are the same exactly when all parameters have the same texts. -/
theorem entries_eq_iff (h : r.Parsed) (h' : r'.Parsed) :
    r.entries = r'.entries ↔ ∀ name, (r.textsOf name).Perm (r'.textsOf name) := by
  constructor
  · intro he name
    by_cases hne : r.textsOf name = [] ∧ r'.textsOf name = []
    · rw [hne.1,hne.2]
    · rcases not_and_or.mp hne with hne | hne
      · have hmem := (mem_entries (x := (name,r.textsOf name)) h).mpr ⟨rfl,hne⟩
        rw [he,mem_entries h'] at hmem
        rw [← hmem.1]
      · have hmem := (mem_entries (x := (name,r'.textsOf name)) h').mpr ⟨rfl,hne⟩
        rw [← he,mem_entries h] at hmem
        rw [← hmem.1]
  · intro hperm
    have htexts : ∀ name, r.textsOf name = r'.textsOf name := fun name =>
      sorted_unique (hperm name) (textsOf_sorted r name) (textsOf_sorted r' name)
    have hnames : (r.query.map (·.1)).Perm (r'.query.map (·.1)) := by
      refine (List.perm_ext_iff_of_nodup h.distinct h'.distinct).mpr fun name => ?_
      rw [mem_names_iff h,mem_names_iff h',htexts name]
    have hsorted : sortTexts (r.query.map (·.1)) = sortTexts (r'.query.map (·.1)) :=
      sorted_unique ((sortTexts_perm _).trans (hnames.trans (sortTexts_perm _).symm))
        (sortTexts_sorted _) (sortTexts_sorted _)
    rw [CacheRequest.entries,CacheRequest.entries,hsorted]
    exact List.map_congr_left fun name _ => by rw [htexts name]

end Requests

section Flat

variable {cls : RequestClass} {req r r' : CacheRequest}

theorem RequestClass.Admits.texts (h : cls.Admits req) (hflat : ¬ cls.nested) (name : String) :
    req.valuesOf name = ((req.valuesOf name).map QueryValue.toText).map .text := by
  have hself : ∀ value ∈ req.valuesOf name, value = .text value.toText := by
    intro value hvalue
    unfold CacheRequest.valuesOf at hvalue
    rcases lookup_cases req name with ⟨-,hnone⟩ | ⟨x,hx,-,hsome⟩
    · rw [hnone] at hvalue
      cases hvalue
    · rw [hsome] at hvalue
      obtain ⟨text,rfl⟩ := h.flat hflat x hx value hvalue
      rfl
  rw [List.map_map]
  exact (List.map_id _).symm.trans (List.map_congr_left hself)

theorem valuesOf_perm_iff (h : cls.Admits r) (h' : cls.Admits r') (hflat : ¬ cls.nested)
    (name : String) :
    (r.valuesOf name).Perm (r'.valuesOf name) ↔ (r.textsOf name).Perm (r'.textsOf name) := by
  have hsorted : ∀ q : CacheRequest,
      (q.textsOf name).Perm ((q.valuesOf name).map QueryValue.toText) := fun q => by
    rw [textsOf_eq]
    exact sortTexts_perm _
  constructor
  · intro hperm
    exact (hsorted r).trans ((hperm.map _).trans (hsorted r').symm)
  · intro hperm
    rw [h.texts hflat,h'.texts hflat]
    exact ((hsorted r).symm.trans (hperm.trans (hsorted r'))).map _

theorem RequestClass.Admits.throws_eq (h : cls.Admits req) (hflat : ¬ cls.nested) :
    (req.query.any fun x => x.2.throws) = false := by
  refine List.any_eq_false.mpr fun x hx => ?_
  rw [Bool.not_eq_true]
  have htext := h.flat hflat x hx
  cases hvalue : x.2 with
  | text value => rfl
  | list values =>
    rw [QueryValue.throws,someThrows_eq]
    refine List.any_eq_false.mpr fun value hmem => ?_
    rw [hvalue] at htext
    obtain ⟨text,rfl⟩ := htext value hmem
    exact Bool.false_ne_true
  | object fields =>
    rw [hvalue] at htext
    obtain ⟨text,⟨⟩⟩ := htext _ List.mem_cons_self

end Flat

section Separators

variable {cls : RequestClass} {req r r' : CacheRequest} {c : Char}

theorem Writes.notMem {allowed : Set Char} {text : String} (h : Writes allowed text)
    (hc : c ∈ separators) (hnot : c ∉ allowed) : c ∉ text.toList := fun hmem => hnot (h c hmem hc)

theorem entry_name (h : cls.Admits req) (hc : c ∈ separators) (hnot : c ∉ cls.inNames)
    {x : String × List String} (hx : x ∈ req.entries) : c ∉ x.1.toList := by
  obtain ⟨name,hname,rfl⟩ := List.mem_map.mp hx
  obtain ⟨y,hy,rfl⟩ := List.mem_map.mp ((sortTexts_perm _).mem_iff.mp hname)
  exact (h.names y hy).notMem hc hnot

theorem entry_values (h : cls.Admits req) (hflat : ¬ cls.nested) (hc : c ∈ separators)
    (hnot : c ∉ cls.inValues) {x : String × List String} (hx : x ∈ req.entries) :
    ∀ text ∈ x.2, c ∉ text.toList := by
  obtain ⟨htexts,hne⟩ := (mem_entries h.parsed).mp hx
  rw [htexts,textsOf_eq]
  intro text htext
  obtain ⟨value,hvalue,rfl⟩ := List.mem_map.mp ((sortTexts_perm _).mem_iff.mp htext)
  unfold CacheRequest.valuesOf at hvalue
  rcases lookup_cases req x.1 with ⟨-,hnone⟩ | ⟨y,hy,-,hsome⟩
  · rw [hnone] at hvalue
    cases hvalue
  · rw [hsome] at hvalue
    obtain ⟨text,rfl⟩ := h.flat hflat y hy value hvalue
    exact (h.values y hy text hvalue).notMem hc hnot

theorem joined_notMem (h : cls.Admits req) (hflat : ¬ cls.nested) (hc : c ∈ separators)
    (hcomma : c ≠ ',') (hnot : c ∉ cls.inValues) {x : String × List String}
    (hx : x ∈ req.entries) : c ∉ (keyPair x).2 :=
  Texts.notMem_intercalate (by simpa using hcomma) (entry_values h hflat hc hnot hx)

/-- Without the comma in the values a parameter can be told from its texts. -/
theorem keyPair_inj (h : cls.Admits r) (h' : cls.Admits r') (hflat : ¬ cls.nested)
    (hcomma : ',' ∉ cls.inValues) {x y : String × List String} (hx : x ∈ r.entries)
    (hy : y ∈ r'.entries) (he : keyPair x = keyPair y) : x = y := by
  obtain ⟨hname,hjoined⟩ := Prod.mk.inj he
  have hvalues := (Texts.intercalate_inj rfl
    (entry_values h hflat List.mem_cons_self hcomma hx)
    (entry_values h' hflat List.mem_cons_self hcomma hy)
    ((mem_entries h.parsed).mp hx).2 ((mem_entries h'.parsed).mp hy).2).mp
    (String.toList_inj.mp hjoined)
  exact Prod.ext (String.toList_inj.mp hname) hvalues

theorem map_inj_of_mem {A B : Type*} {f : A → B} {xs ys : List A}
    (h : ∀ x ∈ xs, ∀ y ∈ ys, f x = f y → x = y) (heq : xs.map f = ys.map f) : xs = ys := by
  induction xs generalizing ys with
  | nil => exact (List.map_eq_nil_iff.mp heq.symm).symm
  | cons x xs ih =>
    cases ys with
    | nil => cases heq
    | cons y ys =>
      obtain ⟨hhead,htail⟩ := List.cons.inj heq
      rw [h x List.mem_cons_self y List.mem_cons_self hhead,
        ih (fun a ha b hb => h a (List.mem_cons_of_mem _ ha) b (List.mem_cons_of_mem _ hb)) htail]

/-- The separators of the names and of the values stand apart. -/
def SeparatorsApart (inNames inValues : Set Char) : Prop :=
  '=' ∉ inNames ∧ '&' ∉ inValues ∨ '&' ∉ inNames ∧ '=' ∉ inValues

theorem entries_inj (h : cls.Admits r) (h' : cls.Admits r') (hflat : ¬ cls.nested)
    (hcomma : ',' ∉ cls.inValues) (hapart : SeparatorsApart cls.inNames cls.inValues)
    (heq : keyRest (r.entries.map keyPair) = keyRest (r'.entries.map keyPair)) :
    r.entries = r'.entries := by
  have hpairs : Texts.joinPairs '=' '&' (r.entries.map keyPair) =
      Texts.joinPairs '=' '&' (r'.entries.map keyPair) := by
    cases hr : r.entries.map keyPair with
    | nil =>
      cases hr' : r'.entries.map keyPair with
      | nil => rfl
      | cons y ys =>
        rw [hr,hr'] at heq
        cases heq
    | cons x xs =>
      cases hr' : r'.entries.map keyPair with
      | nil =>
        rw [hr,hr'] at heq
        cases heq
      | cons y ys =>
        rw [hr,hr'] at heq
        exact (List.cons.inj heq).2
  have hsame : r.entries.map keyPair = r'.entries.map keyPair := by
    rcases hapart with ⟨hnames,hvalues⟩ | ⟨hnames,hvalues⟩
    · have hlack : ∀ {q : CacheRequest}, cls.Admits q → ∀ p ∈ q.entries.map keyPair,
          '=' ∉ p.1 ∧ '&' ∉ p.2 := by
        intro q hq p hp
        obtain ⟨x,hx,rfl⟩ := List.mem_map.mp hp
        exact ⟨entry_name hq (by decide) hnames hx,
          joined_notMem hq hflat (by decide) (by decide) hvalues hx⟩
      exact Texts.joinPairs_inj (hlack h) (hlack h') hpairs
    · have hlack : ∀ {q : CacheRequest}, cls.Admits q → ∀ p ∈ q.entries.map keyPair,
          '&' ∉ p.1 ∧ '=' ∉ p.2 := by
        intro q hq p hp
        obtain ⟨x,hx,rfl⟩ := List.mem_map.mp hp
        exact ⟨entry_name hq (by decide) hnames hx,
          joined_notMem hq hflat (by decide) (by decide) hvalues hx⟩
      exact Texts.joinPairs_inj_right (hlack h) (hlack h') hpairs
  exact map_inj_of_mem (fun x hx y hy => keyPair_inj h h' hflat hcomma hx hy) hsame

theorem keyRest_head (pairs : List (List Char × List Char)) :
    ∀ c ∈ (keyRest pairs).head?, c = ':' := by
  cases pairs with
  | nil => rintro c ⟨⟩
  | cons p pairs =>
    rintro c ⟨⟩
    rfl

theorem keyRest_split {p : List Char × List Char} (pairs : List (List Char × List Char))
    (hcolon : ':' ∉ p.1) : ∃ name behind, keyRest (p :: pairs) = ':' :: (name ++ '=' :: behind) ∧
      '=' ∉ name ∧ ':' ∉ name := by
  have hrest : keyRest (p :: pairs) =
      ':' :: (p.1 ++ '=' :: (p.2 ++ Texts.joinRest '=' '&' pairs)) :=
    congrArg _ (Texts.joinPairs_cons p pairs)
  by_cases heq : '=' ∈ p.1
  · obtain ⟨name,behind,hname,hfirst⟩ := List.eq_append_cons_of_mem heq
    rw [hname] at hrest hcolon
    refine ⟨name,_,hrest.trans (by rw [List.append_assoc,List.cons_append]),hfirst,?_⟩
    exact fun hmem => hcolon (List.mem_append_left _ hmem)
  · exact ⟨p.1,_,hrest,heq,hcolon⟩

/-- The path ends at the first colon; or, where it has colons but no equals sign and the names
have no colons, at the last colon before the first equals sign. -/
theorem path_inj {path path' : List Char} {pairs pairs' : List (List Char × List Char)}
    (h : (':' ∉ path ∧ ':' ∉ path') ∨ ('=' ∉ path ∧ '=' ∉ path') ∧
      (∀ p ∈ pairs, ':' ∉ p.1) ∧ ∀ p ∈ pairs', ':' ∉ p.1)
    (heq : path ++ keyRest pairs = path' ++ keyRest pairs') :
    path = path' ∧ keyRest pairs = keyRest pairs' := by
  rcases h with ⟨hpath,hpath'⟩ | ⟨⟨hpath,hpath'⟩,hnames,hnames'⟩
  · exact Texts.append_inj_of_head heq hpath hpath' (keyRest_head pairs) (keyRest_head pairs')
  · have hsame : path = path' := by
      cases pairs with
      | nil =>
        cases pairs' with
        | nil => simpa [keyRest] using heq
        | cons p' pairs' =>
          obtain ⟨name,behind,hrest,-⟩ := keyRest_split pairs' (hnames' p' List.mem_cons_self)
          rw [hrest,keyRest,List.append_nil] at heq
          rw [heq] at hpath
          simp at hpath
      | cons p pairs =>
        obtain ⟨name,behind,hrest,hname,hcolon⟩ :=
          keyRest_split pairs (hnames p List.mem_cons_self)
        cases pairs' with
        | nil =>
          rw [hrest,keyRest,List.append_nil] at heq
          rw [← heq] at hpath'
          simp at hpath'
        | cons p' pairs' =>
          obtain ⟨name',behind',hrest',hname',hcolon'⟩ :=
            keyRest_split pairs' (hnames' p' List.mem_cons_self)
          rw [hrest,hrest',← List.cons_append,← List.cons_append,← List.append_assoc,
            ← List.append_assoc] at heq
          have hlacks : '=' ∉ path ++ ':' :: name := by simp [hpath,hname]
          have hlacks' : '=' ∉ path' ++ ':' :: name' := by simp [hpath',hname']
          have hbefore := (Texts.append_inj_of_head heq hlacks hlacks' (by simp) (by simp)).1
          exact (Texts.append_separator_inj hbefore hcolon hcolon').1
    subst hsame
    exact ⟨rfl,List.append_cancel_left heq⟩

/-- The colons of the paths are told from the one behind the path. -/
def PathApart (inPaths inNames : Set Char) : Prop :=
  ':' ∉ inPaths ∨ '=' ∉ inPaths ∧ ':' ∉ inNames

theorem sameKey_iff (h : cls.Admits r) (h' : cls.Admits r') (hflat : ¬ cls.nested)
    (hcomma : ',' ∉ cls.inValues) (hapart : SeparatorsApart cls.inNames cls.inValues)
    (hpaths : PathApart cls.inPaths cls.inNames) :
    SameKey r r' ↔ r.path = r'.path ∧ r.entries = r'.entries := by
  have hkey : SameKey r r' ↔ r.path.toList ++ keyRest (r.entries.map keyPair) =
      r'.path.toList ++ keyRest (r'.entries.map keyPair) := by
    rw [SameKey,buildCacheKey_eq (h.throws_eq hflat),buildCacheKey_eq (h'.throws_eq hflat),
      h.parsed.get,h'.parsed.get]
    simp only [Option.some.injEq,exists_eq_left',String.append_right_inj]
    rw [eq_comm,← String.toList_inj,String.toList_ofList,String.toList_ofList]
  rw [hkey]
  constructor
  · intro heq
    have hcolons : ∀ {q : CacheRequest}, cls.Admits q → ':' ∉ cls.inNames →
        ∀ p ∈ q.entries.map keyPair, ':' ∉ p.1 := by
      intro q hq hnames p hp
      obtain ⟨x,hx,rfl⟩ := List.mem_map.mp hp
      exact entry_name hq (by decide) hnames hx
    have hparts := path_inj (hpaths.imp
      (fun hcolon => ⟨h.path.notMem (by decide) hcolon,h'.path.notMem (by decide) hcolon⟩)
      fun ⟨hequals,hnames⟩ => ⟨⟨h.path.notMem (by decide) hequals,
        h'.path.notMem (by decide) hequals⟩,hcolons h hnames,hcolons h' hnames⟩) heq
    exact ⟨String.toList_inj.mp hparts.1,entries_inj h h' hflat hcomma hapart hparts.2⟩
  · rintro ⟨hpath,hentries⟩
    rw [hpath,hentries]

/-- Behind one mount point the paths tell the full paths. -/
theorem sameData_iff (h : cls.Admits r) (h' : cls.Admits r') (hflat : ¬ cls.nested)
    (hone : cls.mounts.Subsingleton) :
    SameData r r' ↔ r.path = r'.path ∧ r.entries = r'.entries := by
  rw [SameData,entries_eq_iff h.parsed h'.parsed,CacheRequest.fullPath,CacheRequest.fullPath,
    hone h.mount h'.mount,String.append_right_inj]
  exact and_congr_right fun _ => forall_congr' fun name => valuesOf_perm_iff h h' hflat name

end Separators

section Collisions

variable {cls : RequestClass}

/-- The keys of a class identify its requests. -/
def RequestClass.Identified (cls : RequestClass) : Prop :=
  ∀ r r', cls.Admits r → cls.Admits r' → (SameKey r r' ↔ SameData r r')

def plain (mount path : String) (query : List (String × List String)) : CacheRequest where
  method := "GET"
  baseUrl := mount
  path := path
  query := query.map fun x => (x.1,.list (x.2.map .text))

def WritesOnly (allowed : List Char) (text : String) : Prop :=
  ∀ c ∈ text.toList, c ∈ separators → c ∈ allowed

instance (allowed : List Char) (text : String) : Decidable (WritesOnly allowed text) :=
  List.decidableBAll (fun c => c ∈ separators → c ∈ allowed) text.toList

def WrittenWith (inPath inNames inValues : List Char) (path : String)
    (query : List (String × List String)) : Prop :=
  path.toList.head? = some '/' ∧ (query.map (·.1)).Nodup ∧ WritesOnly inPath path ∧
    ∀ x ∈ query, x.1 ≠ "" ∧ x.2 ≠ [] ∧ WritesOnly inNames x.1 ∧
      ∀ value ∈ x.2, WritesOnly inValues value

instance (inPath inNames inValues : List Char) (path : String)
    (query : List (String × List String)) :
    Decidable (WrittenWith inPath inNames inValues path query) :=
  inferInstanceAs (Decidable (_ ∧ _))

theorem WrittenWith.admits {inPath inNames inValues : List Char} {mount path : String}
    {query : List (String × List String)} (h : WrittenWith inPath inNames inValues path query)
    (hmount : mount ∈ cls.mounts) (hpath : ∀ c ∈ inPath, c ∈ cls.inPaths)
    (hnames : ∀ c ∈ inNames, c ∈ cls.inNames) (hvalues : ∀ c ∈ inValues, c ∈ cls.inValues) :
    cls.Admits (plain mount path query) := by
  obtain ⟨hslash,hdistinct,hin,hquery⟩ := h
  have hparam : ∀ x ∈ (plain mount path query).query, ∃ y ∈ query,
      x = (y.1,.list (y.2.map .text)) := by
    intro x hx
    obtain ⟨y,hy,rfl⟩ := List.mem_map.mp hx
    exact ⟨y,hy,rfl⟩
  refine ⟨⟨rfl,⟨_,(List.cons_head?_tail hslash).symm⟩,?_,?_⟩,hmount,
    fun c hc hsep => hpath c (hin c hc hsep),?_,?_,?_⟩
  · simpa [plain,Function.comp_def] using hdistinct
  · intro x hx
    obtain ⟨y,hy,rfl⟩ := hparam x hx
    exact ⟨(hquery y hy).1,by simpa [QueryValue.elements] using (hquery y hy).2.1⟩
  · intro x hx c hc hsep
    obtain ⟨y,hy,rfl⟩ := hparam x hx
    exact hnames c ((hquery y hy).2.2.1 c hc hsep)
  · intro x hx text htext c hc hsep
    obtain ⟨y,hy,rfl⟩ := hparam x hx
    obtain ⟨value,hvalue,⟨⟩⟩ := List.mem_map.mp htext
    exact hvalues c ((hquery y hy).2.2.2 text hvalue c hc hsep)
  · intro _ x hx value hvalue
    obtain ⟨y,hy,rfl⟩ := hparam x hx
    obtain ⟨text,-,rfl⟩ := List.mem_map.mp hvalue
    exact ⟨text,rfl⟩

theorem plain_valuesOf (mount path : String) (query : List (String × List String))
    (name : String) : ((plain mount path query).valuesOf name).map QueryValue.toText =
      (query.lookup name).getD [] := by
  have hlookup : ((plain mount path query).query.lookup name) =
      (query.lookup name).map fun texts => QueryValue.list (texts.map .text) := by
    induction query with
    | nil => rfl
    | cons x xs ih =>
      rw [plain,List.map_cons,List.lookup_cons,List.lookup_cons]
      split
      · rfl
      · exact ih
  rw [CacheRequest.valuesOf,hlookup]
  cases query.lookup name with
  | none => rfl
  | some texts => simp [QueryValue.elements,QueryValue.toText,Function.comp_def]

theorem RequestClass.Identified.same (hall : cls.Identified) {inPath inNames inValues : List Char}
    (hpath : ∀ c ∈ inPath, c ∈ cls.inPaths) (hnames : ∀ c ∈ inNames, c ∈ cls.inNames)
    (hvalues : ∀ c ∈ inValues, c ∈ cls.inValues) {path path' key : String}
    {query query' : List (String × List String)}
    (h : WrittenWith inPath inNames inValues path query)
    (h' : WrittenWith inPath inNames inValues path' query')
    (hkey : buildCacheKey (plain "" path query) = some key)
    (hkey' : buildCacheKey (plain "" path' query') = some key) :
    path = path' ∧ ∀ name, ((query.lookup name).getD []).Perm ((query'.lookup name).getD []) := by
  obtain ⟨mount,hmount⟩ := cls.mounted
  obtain ⟨hfull,hsame⟩ := (hall _ _ (h.admits hmount hpath hnames hvalues)
    (h'.admits hmount hpath hnames hvalues)).mp ⟨key,hkey,hkey'⟩
  refine ⟨(String.append_right_inj mount).mp hfull,fun name => ?_⟩
  rw [← plain_valuesOf mount path query,← plain_valuesOf mount path' query']
  exact (hsame name).map _

theorem two_mounts_collide (hall : cls.Identified) : cls.mounts.Subsingleton := by
  intro mount hmount mount' hmount'
  have hroot : WrittenWith [] [] [] "/" [] := by decide
  have hadmits : ∀ {m : String}, m ∈ cls.mounts → cls.Admits (plain m "/" []) := fun hm =>
    hroot.admits hm (by simp) (by simp) (by simp)
  have hkey : buildCacheKey (plain "" "/" []) = some "GET:/" := by decide
  obtain ⟨hfull,-⟩ := (hall _ _ (hadmits hmount) (hadmits hmount')).mp ⟨_,hkey,hkey⟩
  exact (String.append_left_inj "/").mp hfull

theorem Writes.of_free {allowed : Set Char} {text : String}
    (h : WritesOnly [] text) : Writes allowed text :=
  fun c hc hsep => absurd (h c hc hsep) List.not_mem_nil

def nestedRequest (mount text : String) : CacheRequest where
  method := "GET"
  baseUrl := mount
  path := "/"
  query := [("a",.object [("b",.text text)])]

theorem nestedRequest_admits {mount : String} (hmount : mount ∈ cls.mounts)
    (hnested : cls.nested) (text : String) : cls.Admits (nestedRequest mount text) := by
  have hslash : "/".toList = ['/'] := by decide
  have hparam : ∀ x ∈ (nestedRequest mount text).query, x = ("a",.object [("b",.text text)]) :=
    fun x hx => List.mem_singleton.mp hx
  refine ⟨⟨rfl,⟨[],hslash⟩,List.nodup_singleton _,?_⟩,hmount,
    Writes.of_free (by decide : WritesOnly [] "/"),?_,?_,
    fun hflat => absurd hnested hflat⟩
  · intro x hx
    obtain rfl := hparam x hx
    exact ⟨(by decide : "a" ≠ ""),List.cons_ne_nil _ _⟩
  · intro x hx
    obtain rfl := hparam x hx
    exact Writes.of_free (by decide : WritesOnly [] "a")
  · intro x hx value hvalue
    obtain rfl := hparam x hx
    cases List.mem_singleton.mp hvalue

theorem nested_collide (hall : cls.Identified) : ¬ cls.nested := by
  intro hnested
  obtain ⟨mount,hmount⟩ := cls.mounted
  have hkey : buildCacheKey (nestedRequest "" "1") = some "GET:/:a=[object Object]" := by decide
  have hkey' : buildCacheKey (nestedRequest "" "2") = some "GET:/:a=[object Object]" := by decide
  obtain ⟨-,hsame⟩ := (hall _ _ (nestedRequest_admits hmount hnested "1")
    (nestedRequest_admits hmount hnested "2")).mp ⟨_,hkey,hkey'⟩
  have hobject := List.perm_singleton.mp (hsame "a")
  simp [CacheRequest.valuesOf,nestedRequest,QueryValue.elements] at hobject

theorem comma_collides (hall : cls.Identified) : ',' ∉ cls.inValues := by
  intro hc
  have hone : WrittenWith [] [] [','] "/" [("a",[","])] := by decide
  have htwo : WrittenWith [] [] [','] "/" [("a",["",""])] := by decide
  have hkey : buildCacheKey (plain "" "/" [("a",[","])]) = some "GET:/:a=," := by decide
  have hsame := (hall.same (by simp) (by simp) (by simpa using hc) hone htwo hkey (by decide)).2 "a"
  exact absurd hsame (by decide)

theorem apart_of_identified (hall : cls.Identified) : SeparatorsApart cls.inNames cls.inValues := by
  by_contra hnot
  rw [SeparatorsApart,not_or,not_and_or,not_and_or,not_not,not_not,not_not,not_not] at hnot
  obtain ⟨hequals | hamp,hamp' | hequals'⟩ := hnot
  · have hone : WrittenWith [] ['=','&'] [] "/" [("a",[""]),("b",[""])] := by decide
    have htwo : WrittenWith [] ['=','&'] [] "/" [("a=&b",[""])] := by decide
    have hkey : buildCacheKey (plain "" "/" [("a",[""]),("b",[""])]) = some "GET:/:a=&b=" := by
      decide
    have hsame := (hall.same (by simp) (by simp [hequals,hamp']) (by simp) hone htwo hkey
      (by decide)).2 "a"
    exact absurd hsame (by decide)
  · have hone : WrittenWith [] ['='] ['='] "/" [("a=",[""])] := by decide
    have htwo : WrittenWith [] ['='] ['='] "/" [("a",["="])] := by decide
    have hkey : buildCacheKey (plain "" "/" [("a=",[""])]) = some "GET:/:a==" := by decide
    have hsame := (hall.same (by simp) (by simp [hequals]) (by simp [hequals']) hone htwo hkey
      (by decide)).2 "a"
    exact absurd hsame (by decide)
  · have hone : WrittenWith [] ['&'] ['&'] "/" [("&",[""]),("&&a",[""])] := by decide
    have htwo : WrittenWith [] ['&'] ['&'] "/" [("&",["&"]),("&a",[""])] := by decide
    have hkey : buildCacheKey (plain "" "/" [("&",[""]),("&&a",[""])]) =
        some "GET:/:&=&&&a=" := by decide
    have hsame := (hall.same (by simp) (by simp [hamp']) (by simp [hamp]) hone htwo hkey
      (by decide)).2 "&a"
    exact absurd hsame (by decide)
  · have hone : WrittenWith [] [] ['&','='] "/" [("a",[""]),("b",[""])] := by decide
    have htwo : WrittenWith [] [] ['&','='] "/" [("a",["&b="])] := by decide
    have hkey : buildCacheKey (plain "" "/" [("a",[""]),("b",[""])]) = some "GET:/:a=&b=" := by
      decide
    have hsame := (hall.same (by simp) (by simp) (by simp [hamp,hequals']) hone htwo hkey
      (by decide)).2 "a"
    exact absurd hsame (by decide)

theorem pathApart_of_identified (hall : cls.Identified) : PathApart cls.inPaths cls.inNames := by
  by_contra hnot
  rw [PathApart,not_or,not_and_or,not_not,not_not,not_not] at hnot
  obtain ⟨hcolon,hequals | hname⟩ := hnot
  · have hone : WrittenWith [':','='] [] [] "/" [("a",[""])] := by decide
    have htwo : WrittenWith [':','='] [] [] "/:a=" [] := by decide
    have hkey : buildCacheKey (plain "" "/" [("a",[""])]) = some "GET:/:a=" := by decide
    have hsame := (hall.same (by simp [hcolon,hequals]) (by simp) (by simp) hone htwo hkey
      (by decide)).1
    exact absurd hsame (by decide)
  · have hone : WrittenWith [':'] [':'] [] "/" [(":a",[""])] := by decide
    have htwo : WrittenWith [':'] [':'] [] "/:" [("a",[""])] := by decide
    have hkey : buildCacheKey (plain "" "/" [(":a",[""])]) = some "GET:/::a=" := by decide
    have hsame := (hall.same (by simp [hcolon]) (by simp [hname]) (by simp) hone htwo hkey
      (by decide)).1
    exact absurd hsame (by decide)

end Collisions

/-- The keys of a class identify its requests, and no key stands for two, exactly when the class
has one mount point, no nested values, no comma in a value, and the other separators apart. -/
theorem cacheKeys_identify (cls : RequestClass) :
    (∀ r r', cls.Admits r → cls.Admits r' → (SameKey r r' ↔ SameData r r')) ↔
      cls.mounts.Subsingleton ∧ ¬ cls.nested ∧ ',' ∉ cls.inValues ∧
        ('=' ∉ cls.inNames ∧ '&' ∉ cls.inValues ∨ '&' ∉ cls.inNames ∧ '=' ∉ cls.inValues) ∧
        (':' ∉ cls.inPaths ∨ '=' ∉ cls.inPaths ∧ ':' ∉ cls.inNames) := by
  constructor
  · intro hall
    exact ⟨two_mounts_collide hall,nested_collide hall,comma_collides hall,
      apart_of_identified hall,pathApart_of_identified hall⟩
  · rintro ⟨hone,hflat,hcomma,hapart,hpaths⟩ r r' h h'
    rw [sameKey_iff h h' hflat hcomma hapart hpaths,sameData_iff h h' hflat hone]

section Examples

def completedDeposits : CacheRequest where
  method := "GET"
  baseUrl := "/api/v1/transactions"
  path := "/"
  query := [("status",.text "completed"),("type",.text "deposit")]

def oddStatus : CacheRequest where
  method := "GET"
  baseUrl := "/api/v1/transactions"
  path := "/"
  query := [("status",.text "completed&type=deposit")]

/-- The two requests are answered from one entry of the cache. -/
theorem completedDeposits_collide : completedDeposits.Parsed ∧ oddStatus.Parsed ∧
    SameKey completedDeposits oddStatus ∧ ¬ SameData completedDeposits oddStatus := by
  have hslash : "/".toList = ['/'] := by decide
  refine ⟨⟨rfl,⟨[],hslash⟩,by decide,?_⟩,⟨rfl,⟨[],hslash⟩,by decide,?_⟩,
    ⟨"GET:/:status=completed&type=deposit",by decide,by decide⟩,fun h => ?_⟩
  · simp [completedDeposits,QueryValue.elements]
  · simp [oddStatus,QueryValue.elements]
  · cases (h.2 "type").length_eq

end Examples

end YieldVault.Backend
