import YieldVault.Utf16

/-! JSON values and texts. A text of a value ends where the value ends, whatever is written
behind it: strings end at the first plain quote, lists at the closing bracket, numbers before
the next comma or bracket. -/
namespace JsonTexts

open Utf16

section Strings

/-- The characters that are written with a backslash and one other character. -/
def shortEscapes : List (Char × Char) :=
  [(Char.ofNat 8,'b'),('\t','t'),('\n','n'),(Char.ofNat 12,'f'),('\r','r'),('"','"'),('\\','\\')]

def hexDigits (n : ℕ) : List Char :=
  [n/4096,n/256%16,n/16%16,n%16].map Nat.digitChar

/-- Control characters and surrogates without their other half are written in digits. -/
def quotePoint : CodePoint → List Char
  | .scalar c => match shortEscapes.lookup c with
    | some e => ['\\',e]
    | none => if c.toNat < 32 then '\\' :: 'u' :: hexDigits c.toNat else [c]
  | .lone u _ => '\\' :: 'u' :: hexDigits u.val

def quote (text : List CodeUnit) : List Char :=
  '"' :: (codePoints text).flatMap quotePoint ++ ['"']

example : quote [97,34,10,31,0xD83D,0xDE00,0xDE00] = "\"a\\\"\\n\\u001f😀\\ude00\"".toList := by
  decide

variable {a b : List Char}

theorem digitChar_inj : ∀ m n : Fin 16, Nat.digitChar m = Nat.digitChar n → m = n := by
  decide

theorem hexDigits_append_inj {m n : ℕ} (hm : m < 65536) (hn : n < 65536)
    (h : hexDigits m ++ a = hexDigits n ++ b) : m = n ∧ a = b := by
  have hdigit : ∀ {x y : ℕ}, x < 16 → y < 16 → Nat.digitChar x = Nat.digitChar y → x = y :=
    fun hx hy he => congrArg Fin.val (digitChar_inj ⟨_,hx⟩ ⟨_,hy⟩ he)
  simp only [hexDigits,List.map_cons,List.map_nil,List.cons_append,List.nil_append,
    List.cons.injEq] at h
  obtain ⟨h1,h2,h3,h4,hrest⟩ := h
  have h1 := hdigit (by omega) (by omega) h1
  have h2 := hdigit (by omega) (by omega) h2
  have h3 := hdigit (by omega) (by omega) h3
  have h4 := hdigit (by omega) (by omega) h4
  exact ⟨by omega,hrest⟩

/-- What stands for a code point: a short escape, its digits or the character itself. -/
inductive Quoted : CodePoint → List Char → Prop
  | short {c e : Char} (h : (c,e) ∈ shortEscapes) : Quoted (.scalar c) ['\\',e]
  | digits {p : CodePoint} {n : ℕ} (h : p.units = [n] ∧ n < 65536) :
      Quoted p ('\\' :: 'u' :: hexDigits n)
  | plain {c : Char} (h : c ≠ '\\' ∧ c ≠ '"') : Quoted (.scalar c) [c]

theorem quotePoint_quoted (p : CodePoint) : Quoted p (quotePoint p) := by
  cases p with
  | lone u h => exact .digits ⟨rfl,u.isLt⟩
  | scalar c =>
    rw [quotePoint]
    cases he : shortEscapes.lookup c with
    | some e =>
      obtain ⟨before,after,hlist,-⟩ := List.lookup_eq_some_iff.mp he
      exact .short (by rw [hlist]; simp)
    | none =>
      simp only
      split_ifs with hc
      · exact .digits ⟨if_pos (by omega),by omega⟩
      · refine .plain ⟨?_,?_⟩
        · rintro rfl
          exact absurd he (by decide)
        · rintro rfl
          exact absurd he (by decide)

theorem shortEscapes_inj : ∀ x ∈ shortEscapes, x.2 ≠ 'u' ∧ ∀ y ∈ shortEscapes, x.2 = y.2 → x = y := by
  decide

theorem Quoted.append_inj {p q : CodePoint} {xs ys : List Char} (hp : Quoted p xs)
    (hq : Quoted q ys) (h : xs ++ a = ys ++ b) : p = q ∧ a = b := by
  cases hp with
  | short hc =>
    cases hq with
    | short hd =>
      obtain ⟨he,hrest⟩ := List.cons.inj (List.cons.inj h).2
      have hpair := (shortEscapes_inj _ hc).2 _ hd he
      exact ⟨congrArg CodePoint.scalar (Prod.mk.inj hpair).1,hrest⟩
    | digits hd =>
      exact absurd (List.cons.inj (List.cons.inj h).2).1 (shortEscapes_inj _ hc).1
    | plain hd => exact absurd (List.cons.inj h).1.symm hd.1
  | digits hc =>
    cases hq with
    | short hd =>
      exact absurd (List.cons.inj (List.cons.inj h).2).1.symm (shortEscapes_inj _ hd).1
    | digits hd =>
      obtain ⟨hn,hrest⟩ := hexDigits_append_inj hc.2 hd.2 (List.cons.inj (List.cons.inj h).2).2
      exact ⟨CodePoint.units_injective (by rw [hc.1,hd.1,hn]),hrest⟩
    | plain hd => exact absurd (List.cons.inj h).1.symm hd.1
  | plain hc =>
    cases hq with
    | short hd => exact absurd (List.cons.inj h).1 hc.1
    | digits hd => exact absurd (List.cons.inj h).1 hc.1
    | plain hd => exact ⟨congrArg CodePoint.scalar (List.cons.inj h).1,(List.cons.inj h).2⟩

theorem Quoted.ne_quote {p : CodePoint} {xs : List Char} (hp : Quoted p xs) :
    xs ++ a ≠ '"' :: b := by
  intro h
  cases hp with
  | short _ => exact absurd (List.cons.inj h).1 (by decide)
  | digits _ => exact absurd (List.cons.inj h).1 (by decide)
  | plain hc => exact hc.2 (List.cons.inj h).1

theorem flatMap_quotePoint_inj {ps qs : List CodePoint}
    (h : ps.flatMap quotePoint ++ '"' :: a = qs.flatMap quotePoint ++ '"' :: b) :
    ps = qs ∧ a = b := by
  induction ps generalizing qs with
  | nil =>
    cases qs with
    | nil => exact ⟨rfl,(List.cons.inj h).2⟩
    | cons q qs =>
      rw [List.flatMap_cons,List.append_assoc] at h
      exact absurd h.symm (quotePoint_quoted q).ne_quote
  | cons p ps ih =>
    rw [List.flatMap_cons,List.append_assoc] at h
    cases qs with
    | nil => exact absurd h (quotePoint_quoted p).ne_quote
    | cons q qs =>
      rw [List.flatMap_cons,List.append_assoc] at h
      obtain ⟨rfl,hrest⟩ := (quotePoint_quoted p).append_inj (quotePoint_quoted q) h
      obtain ⟨rfl,hend⟩ := ih hrest
      exact ⟨rfl,hend⟩

theorem quote_append_inj {text text' : List CodeUnit} (h : quote text ++ a = quote text' ++ b) :
    text = text' ∧ a = b := by
  simp only [quote,List.cons_append,List.append_assoc,List.nil_append,List.cons.injEq,
    true_and] at h
  obtain ⟨hpoints,hend⟩ := flatMap_quotePoint_inj h
  exact ⟨codePoints_injective hpoints,hend⟩

end Strings

section Values

/-- An array has an item at each of its indices, a record a value for each of its keys, which
are in the order in which they were set. -/
inductive Json (N : Type*)
  | null
  | bool (b : Bool)
  | num (n : N)
  | str (text : List CodeUnit)
  | arr (length : ℕ) (item : Fin length → Json N)
  | obj (keys : List (List CodeUnit)) (distinct : keys.Nodup) (value : {k // k ∈ keys} → Json N)

/-- Equal values, where the order of keys does not count. -/
inductive Same {N : Type*} : Json N → Json N → Prop
  | null : Same .null .null
  | bool (b : Bool) : Same (.bool b) (.bool b)
  | num (n : N) : Same (.num n) (.num n)
  | str (text : List CodeUnit) : Same (.str text) (.str text)
  | arr {length : ℕ} {item item' : Fin length → Json N} (h : ∀ i, Same (item i) (item' i)) :
      Same (.arr length item) (.arr length item')
  | obj {keys keys' : List (List CodeUnit)} {distinct : keys.Nodup} {distinct' : keys'.Nodup}
      {value : {k // k ∈ keys} → Json N} {value' : {k // k ∈ keys'} → Json N}
      (hkeys : ∀ k, k ∈ keys ↔ k ∈ keys')
      (h : ∀ k hk hk', Same (value ⟨k,hk⟩) (value' ⟨k,hk'⟩)) :
      Same (.obj keys distinct value) (.obj keys' distinct' value')

/-- How numbers are written: a number is told by its text, which has only characters of numbers. -/
structure NumberFormat (N : Type*) where
  text : N → List Char
  injective : Function.Injective text
  nonempty : ∀ n, text n ≠ []
  numeric : ∀ n, ∀ c ∈ text n, c ∈ "0123456789+-.e".toList

end Values

section Joining

def Ends (a : List Char) : Prop := ∀ c ∈ a.head?, c = ',' ∨ c = ']' ∨ c = '}'

theorem ends_cons {c : Char} {a : List Char} (h : c = ',' ∨ c = ']' ∨ c = '}') : Ends (c :: a) := by
  rintro d ⟨⟩
  exact h

/-- What stands behind an item, with the texts of the items that follow. -/
def behind (close : Char) (texts : List (List Char)) (a : List Char) : List Char :=
  if texts = [] then close :: a else ',' :: ([','].intercalate texts ++ close :: a)

theorem intercalate_cons (close : Char) (text : List Char) (texts : List (List Char))
    (a : List Char) :
    [','].intercalate (text :: texts) ++ close :: a = text ++ behind close texts a := by
  cases texts with
  | nil => simp [behind]
  | cons next texts => simp [behind]

variable {A B : Type*} {close : Char} {f : A → List Char} {g : B → List Char} {R : A → B → Prop}

theorem behind_ends (hclose : close = ']' ∨ close = '}') (texts : List (List Char))
    (a : List Char) : Ends (behind close texts a) := by
  unfold behind
  split_ifs
  · exact ends_cons (Or.inr hclose)
  · exact ends_cons (Or.inl rfl)

/-- Lists of texts that end by themselves can be told apart. -/
theorem joined_append_inj (hclose : close = ']' ∨ close = '}') {xs : List A} {ys : List B}
    (hx : ∀ x ∈ xs, ∀ a b, f x ++ a ≠ close :: b) (hy : ∀ y ∈ ys, ∀ a b, g y ++ a ≠ close :: b)
    (hinj : ∀ x ∈ xs, ∀ y ∈ ys, ∀ a b, Ends a → Ends b → f x ++ a = g y ++ b → R x y ∧ a = b)
    {a b : List Char}
    (h : [','].intercalate (xs.map f) ++ close :: a = [','].intercalate (ys.map g) ++ close :: b) :
    List.Forall₂ R xs ys ∧ a = b := by
  have hcomma : ',' ≠ close := by rcases hclose with rfl | rfl <;> decide
  induction xs generalizing ys with
  | nil =>
    cases ys with
    | nil => exact ⟨.nil,(List.cons.inj h).2⟩
    | cons y ys =>
      rw [List.map_cons,intercalate_cons] at h
      exact absurd h.symm (hy y List.mem_cons_self _ _)
  | cons x xs ih =>
    rw [List.map_cons,intercalate_cons] at h
    cases ys with
    | nil => exact absurd h (hx x List.mem_cons_self _ _)
    | cons y ys =>
      rw [List.map_cons,intercalate_cons] at h
      obtain ⟨hR,hrest⟩ := hinj x List.mem_cons_self y List.mem_cons_self _ _
        (behind_ends hclose _ _) (behind_ends hclose _ _) h
      unfold behind at hrest
      split_ifs at hrest with hnil hnil' hnil'
      · rw [List.map_eq_nil_iff] at hnil hnil'
        subst hnil hnil'
        exact ⟨.cons hR .nil,(List.cons.inj hrest).2⟩
      · exact absurd (List.cons.inj hrest).1.symm hcomma
      · exact absurd (List.cons.inj hrest).1 hcomma
      · obtain ⟨hall,hend⟩ := ih (fun x hx' => hx x (List.mem_cons_of_mem _ hx'))
          (fun y hy' => hy y (List.mem_cons_of_mem _ hy'))
          (fun x hx' y hy' => hinj x (List.mem_cons_of_mem _ hx') y (List.mem_cons_of_mem _ hy'))
          (List.cons.inj hrest).2
        exact ⟨.cons hR hall,hend⟩

theorem NumberFormat.append_inj {N : Type*} (fmt : NumberFormat N) {m n : N} {a b : List Char}
    (ha : Ends a) (hb : Ends b) (h : fmt.text m ++ a = fmt.text n ++ b) : m = n ∧ a = b := by
  have hnot : ∀ {n : N} {c : Char} {mid rest : List Char}, Ends (c :: rest) →
      c :: mid ⊆ fmt.text n → False := by
    intro n c mid rest hends hsub
    have hnumeric := fmt.numeric n c (hsub List.mem_cons_self)
    rcases hends c rfl with rfl | rfl | rfl
    · exact absurd hnumeric (by decide)
    · exact absurd hnumeric (by decide)
    · exact absurd hnumeric (by decide)
  rcases List.append_eq_append_iff.mp h with ⟨mid,hmid,rfl⟩ | ⟨mid,hmid,rfl⟩
  · cases mid with
    | nil => exact ⟨fmt.injective (by rw [hmid,List.append_nil]),rfl⟩
    | cons c mid => exact (hnot ha (hmid ▸ List.subset_append_right _ _)).elim
  · cases mid with
    | nil => exact ⟨fmt.injective (by rw [hmid,List.append_nil]),rfl⟩
    | cons c mid => exact (hnot hb (hmid ▸ List.subset_append_right _ _)).elim

end Joining

end JsonTexts
