import Mathlib.Tactic

/-! Texts made of lines, and dates as text. -/
namespace Texts

def joinLines : List String → String
  | [] => ""
  | [line] => line
  | line :: next :: lines => line ++ "\n" ++ joinLines (next :: lines)

def OneLine (text : String) : Prop := '\n' ∉ text.toList

instance (text : String) : Decidable (OneLine text) := inferInstanceAs (Decidable (¬ _))

theorem joinLines_concat {lines : List String} (h : lines ≠ []) (line : String) :
    joinLines (lines ++ [line]) = joinLines lines ++ "\n" ++ line := by
  induction lines with
  | nil => exact absurd rfl h
  | cons first rest ih =>
    cases rest with
    | nil => rfl
    | cons next rest =>
      have hrest := ih (List.cons_ne_nil _ _)
      simp only [List.cons_append,joinLines] at hrest ⊢
      rw [hrest]
      simp only [String.append_assoc]

theorem notMem_intercalate {separator : String} {texts : List String} {c : Char}
    (hc : c ∉ separator.toList) (h : ∀ text ∈ texts, c ∉ text.toList) :
    c ∉ (separator.intercalate texts).toList := by
  induction texts with
  | nil => simp
  | cons text texts ih =>
    obtain ⟨htext,hrest⟩ := List.forall_mem_cons.mp h
    cases texts with
    | nil => simpa using htext
    | cons next texts =>
      rw [String.intercalate_cons_cons,String.toList_append,String.toList_append]
      simp only [List.mem_append,not_or]
      exact ⟨⟨htext,hc⟩,ih hrest⟩

/-- Texts without the separator can be told from what they are joined to. -/
theorem intercalate_inj {separator : String} {c : Char} (hsep : separator.toList = [c])
    {texts texts' : List String} (h : ∀ text ∈ texts, c ∉ text.toList)
    (h' : ∀ text ∈ texts', c ∉ text.toList) (hne : texts ≠ []) (hne' : texts' ≠ []) :
    separator.intercalate texts = separator.intercalate texts' ↔ texts = texts' := by
  refine ⟨fun heq => ?_,congrArg _⟩
  have hlist := congrArg String.toList heq
  rw [String.toList_intercalate,String.toList_intercalate,hsep] at hlist
  have hsplit := congrArg (List.splitOn c) hlist
  rw [List.splitOn_intercalate c (by simpa using h) (by simpa using hne),
    List.splitOn_intercalate c (by simpa using h') (by simpa using hne')] at hsplit
  exact List.map_injective_iff.mpr (fun _ _ => String.toList_inj.mp) hsplit

theorem append_separator_inj {A : Type*} {separator : A} {xs ys xs' ys' : List A}
    (h : xs ++ separator :: ys = xs' ++ separator :: ys') (hys : separator ∉ ys)
    (hys' : separator ∉ ys') : xs = xs' ∧ ys = ys' := by
  rcases List.append_eq_append_iff.mp h with ⟨mid,rfl,hmid⟩ | ⟨mid,rfl,hmid⟩
  · cases mid with
    | nil => exact ⟨(List.append_nil _).symm,(List.cons.inj hmid).2⟩
    | cons a mid =>
      obtain ⟨rfl,rfl⟩ := List.cons.inj hmid
      exact absurd (List.mem_append_right _ List.mem_cons_self) hys
  · cases mid with
    | nil => exact ⟨List.append_nil _,(List.cons.inj hmid).2.symm⟩
    | cons a mid =>
      obtain ⟨rfl,rfl⟩ := List.cons.inj hmid
      exact absurd (List.mem_append_right _ List.mem_cons_self) hys'

theorem joinLines_concat_inj (lines lines' : List String) (h : lines ≠ []) (h' : lines' ≠ [])
    {line line' : String} (hline : OneLine line) (hline' : OneLine line')
    (heq : joinLines (lines ++ [line]) = joinLines (lines' ++ [line'])) :
    joinLines lines = joinLines lines' ∧ line = line' := by
  rw [joinLines_concat h,joinLines_concat h'] at heq
  have hlist := congrArg String.toList heq
  simp only [String.toList_append,List.append_assoc] at hlist
  obtain ⟨hfirst,hlast⟩ := append_separator_inj hlist hline hline'
  exact ⟨String.toList_inj.mp hfirst,String.toList_inj.mp hlast⟩

theorem OneLine.append {text text' : String} (h : OneLine text) (h' : OneLine text') :
    OneLine (text ++ text') := by
  unfold OneLine
  rw [String.toList_append,List.mem_append]
  exact fun hmem => hmem.elim h h'

section Pairs

variable {A : Type*} {a b : A}

/-- Two lists are told from what they are joined to, which begins with a separator that they
do not have. -/
theorem append_inj_of_head {xs ys xs' ys' : List A} (h : xs ++ ys = xs' ++ ys') (hxs : a ∉ xs)
    (hxs' : a ∉ xs') (hys : ∀ c ∈ ys.head?, c = a) (hys' : ∀ c ∈ ys'.head?, c = a) :
    xs = xs' ∧ ys = ys' := by
  rcases List.append_eq_append_iff.mp h with ⟨mid,rfl,rfl⟩ | ⟨mid,rfl,rfl⟩
  · cases mid with
    | nil => exact ⟨(List.append_nil _).symm,rfl⟩
    | cons c mid =>
      obtain rfl := hys c rfl
      exact absurd (List.mem_append_right _ List.mem_cons_self) hxs'
  · cases mid with
    | nil => exact ⟨List.append_nil _,rfl⟩
    | cons c mid =>
      obtain rfl := hys' c rfl
      exact absurd (List.mem_append_right _ List.mem_cons_self) hxs

def joinPairs (a b : A) (pairs : List (List A × List A)) : List A :=
  [b].intercalate (pairs.map fun p => p.1 ++ a :: p.2)

def joinRest (a b : A) : List (List A × List A) → List A
  | [] => []
  | p :: pairs => b :: joinPairs a b (p :: pairs)

theorem joinPairs_cons (p : List A × List A) (pairs : List (List A × List A)) :
    joinPairs a b (p :: pairs) = p.1 ++ a :: (p.2 ++ joinRest a b pairs) := by
  cases pairs with
  | nil => simp [joinPairs,joinRest]
  | cons q pairs => simp [joinPairs,joinRest,List.intercalate_cons_cons]

theorem joinRest_head (pairs : List (List A × List A)) :
    ∀ c ∈ (joinRest a b pairs).head?, c = b := by
  cases pairs with
  | nil => rintro c ⟨⟩
  | cons p pairs =>
    rintro c ⟨⟩
    rfl

/-- The pairs are told from the text where the first parts lack the one separator and the
second parts the other. -/
theorem joinPairs_inj {pairs pairs' : List (List A × List A)}
    (h : ∀ p ∈ pairs, a ∉ p.1 ∧ b ∉ p.2) (h' : ∀ p ∈ pairs', a ∉ p.1 ∧ b ∉ p.2)
    (heq : joinPairs a b pairs = joinPairs a b pairs') : pairs = pairs' := by
  induction pairs generalizing pairs' with
  | nil =>
    cases pairs' with
    | nil => rfl
    | cons p' pairs' =>
      rw [joinPairs_cons] at heq
      exact absurd heq.symm (List.append_ne_nil_of_right_ne_nil _ (List.cons_ne_nil _ _))
  | cons p pairs ih =>
    cases pairs' with
    | nil =>
      rw [joinPairs_cons] at heq
      exact absurd heq (List.append_ne_nil_of_right_ne_nil _ (List.cons_ne_nil _ _))
    | cons p' pairs' =>
      obtain ⟨hp,hrest⟩ := List.forall_mem_cons.mp h
      obtain ⟨hp',hrest'⟩ := List.forall_mem_cons.mp h'
      rw [joinPairs_cons,joinPairs_cons] at heq
      obtain ⟨hfirst,hbehind⟩ := append_inj_of_head heq hp.1 hp'.1 (by simp) (by simp)
      obtain ⟨hsecond,htail⟩ := append_inj_of_head (List.cons.inj hbehind).2 hp.2 hp'.2
        (joinRest_head pairs) (joinRest_head pairs')
      have hpairs : pairs = pairs' := by
        cases pairs with
        | nil =>
          cases pairs' with
          | nil => rfl
          | cons q' pairs' => cases htail
        | cons q pairs =>
          cases pairs' with
          | nil => cases htail
          | cons q' pairs' => exact ih hrest hrest' (List.cons.inj htail).2
      rw [Prod.ext hfirst hsecond,hpairs]

theorem joinPairs_concat {pairs : List (List A × List A)} (hne : pairs ≠ [])
    (p : List A × List A) :
    joinPairs a b (pairs ++ [p]) = joinPairs a b pairs ++ b :: (p.1 ++ a :: p.2) := by
  induction pairs with
  | nil => exact absurd rfl hne
  | cons q pairs ih =>
    cases pairs with
    | nil => simp [joinPairs,List.intercalate_cons_cons]
    | cons q' pairs =>
      have hrest := ih (List.cons_ne_nil _ _)
      rw [List.cons_append] at hrest ⊢
      rw [joinPairs_cons,joinPairs_cons,List.cons_append,joinRest,joinRest,hrest]
      simp

theorem joinPairs_reverse (pairs : List (List A × List A)) : (joinPairs a b pairs).reverse =
    joinPairs a b (pairs.reverse.map fun p => (p.2.reverse,p.1.reverse)) := by
  induction pairs with
  | nil => rfl
  | cons p pairs ih =>
    rw [joinPairs_cons,List.reverse_cons,List.map_append]
    cases pairs with
    | nil => simp [joinPairs,joinRest]
    | cons q pairs =>
      rw [List.map_singleton,joinPairs_concat (by simp),← ih]
      simp [joinRest]

/-- The same where the first parts lack the second separator and the second parts the first. -/
theorem joinPairs_inj_right {pairs pairs' : List (List A × List A)}
    (h : ∀ p ∈ pairs, b ∉ p.1 ∧ a ∉ p.2) (h' : ∀ p ∈ pairs', b ∉ p.1 ∧ a ∉ p.2)
    (heq : joinPairs a b pairs = joinPairs a b pairs') : pairs = pairs' := by
  have hflip : ∀ {ps : List (List A × List A)}, (∀ p ∈ ps, b ∉ p.1 ∧ a ∉ p.2) →
      ∀ p ∈ ps.reverse.map fun p => (p.2.reverse,p.1.reverse), a ∉ p.1 ∧ b ∉ p.2 := by
    intro ps hps p hp
    obtain ⟨q,hq,rfl⟩ := List.mem_map.mp hp
    simpa using (hps q (List.mem_reverse.mp hq)).symm
  have hflipped := joinPairs_inj (hflip h) (hflip h')
    (by rw [← joinPairs_reverse,← joinPairs_reverse,heq])
  have hinjective : Function.Injective fun p : List A × List A => (p.2.reverse,p.1.reverse) := by
    rintro ⟨x,y⟩ ⟨x',y'⟩ hp
    obtain ⟨hy,hx⟩ := Prod.mk.inj hp
    exact Prod.ext (List.reverse_injective hx) (List.reverse_injective hy)
  exact List.reverse_injective (hinjective.list_map hflipped)

end Pairs

section Dates

/-- The decimal digits of a number, with zeros in front up to the width. -/
def padded (width n : ℕ) : List Char :=
  (List.range width).reverse.map fun k => Nat.digitChar (n/10^k % 10)

theorem newline_notMem_padded (width n : ℕ) : '\n' ∉ padded width n := by
  intro h
  obtain ⟨k,-,hk⟩ := List.mem_map.mp h
  have hdigit : ∀ d < 10, Nat.digitChar d ≠ '\n' := by decide
  exact hdigit _ (Nat.mod_lt _ (by norm_num)) hk

/-- Year, month and day of the Gregorian calendar, from the days since 1970. The years are
counted from March, in eras of 400 years. -/
def civilDate (days : ℕ) : ℕ × ℕ × ℕ :=
  let z := days+719468
  let dayOfEra := z % 146097
  let yearOfEra := (dayOfEra-dayOfEra/1460+dayOfEra/36524-dayOfEra/146096)/365
  let dayOfYear := dayOfEra-(365*yearOfEra+yearOfEra/4-yearOfEra/100)
  let mp := (5*dayOfYear+2)/153
  let month := if mp < 10 then mp+3 else mp-9
  let year := yearOfEra+z/146097*400
  (if month ≤ 2 then year+1 else year,month,dayOfYear-(153*mp+2)/5+1)

/-- `Date.prototype.toISOString`, from the milliseconds since 1970. -/
def toISOString (ms : ℕ) : String :=
  let (year,month,day) := civilDate (ms/86400000)
  String.ofList ((if year ≤ 9999 then padded 4 year else '+' :: padded 6 year) ++
    '-' :: padded 2 month ++ '-' :: padded 2 day ++ 'T' :: padded 2 (ms/3600000 % 24) ++
    ':' :: padded 2 (ms/60000 % 60) ++ ':' :: padded 2 (ms/1000 % 60) ++
    '.' :: padded 3 (ms % 1000) ++ ['Z'])

theorem oneLine_toISOString (ms : ℕ) : OneLine (toISOString ms) := by
  have hpadded := newline_notMem_padded
  have hyear : ∀ year, '\n' ∉ if year ≤ 9999 then padded 4 year else '+' :: padded 6 year := by
    intro year
    split
    · exact hpadded 4 year
    · exact List.not_mem_cons_of_ne_of_not_mem (by decide) (hpadded 6 year)
  simp [OneLine,toISOString,hpadded,hyear]

example : toISOString 951827696789 = "2000-02-29T12:34:56.789Z" := by decide

end Dates

end Texts
