import YieldVault.JsonTexts

/-! The redaction of what goes into the admin audit log: values under keys that sound secret are
replaced, at any depth. -/
namespace YieldVault.Backend
open Utf16 JsonTexts

section Keys

/-- The code units of a text without characters beyond the first plane. -/
def codeUnits (text : String) : List CodeUnit := text.toList.map fun c => Fin.ofNat 65536 c.toNat

def DEFAULT_SENSITIVE_KEYS : List String :=
  ["authorization","api_key","apikey","access_token","refresh_token","token","secret","password",
    "signature","private_key","nonce","passphrase","credential"]

def REDACTION_TOKEN : List CodeUnit := codeUnits "[REDACTED]"

def isWhiteSpace (u : CodeUnit) : Bool :=
  decide (u.val ∈ [9,10,11,12,13,32,160,5760,8232,8233,8239,8287,12288,65279] ∨
    8192 ≤ u.val ∧ u.val ≤ 8202)

/-- `String.prototype.trim`, on code units. -/
def trimUnits (key : List CodeUnit) : List CodeUnit :=
  ((key.dropWhile isWhiteSpace).reverse.dropWhile isWhiteSpace).reverse

def isAlnum (u : CodeUnit) : Bool :=
  97 ≤ u.val && u.val ≤ 122 || 48 ≤ u.val && u.val ≤ 57

def underscore : CodeUnit := 95

def normalizeUnit (u : CodeUnit) : CodeUnit := if isAlnum u || u = underscore then u else underscore

-- `String.prototype.toLowerCase`.
variable (toLowerCase : List CodeUnit → List CodeUnit)

def isSensitiveKey (key : List CodeUnit) : Bool :=
  let normalized := (toLowerCase (trimUnits key)).map normalizeUnit
  DEFAULT_SENSITIVE_KEYS.any fun sensitive => decide (codeUnits sensitive <:+: normalized)

end Keys

section Values

variable {N : Type*} (toLowerCase : List CodeUnit → List CodeUnit)

def protoKey : List CodeUnit := codeUnits "__proto__"

/-- Each key is set on a new object, where `__proto__` sets the prototype and is no key. -/
def redactSensitiveAttributes : Json N → Json N
  | .null => .null
  | .bool b => .bool b
  | .num n => .num n
  | .str text => .str text
  | .arr length item => .arr length fun i => redactSensitiveAttributes (item i)
  | .obj keys distinct value =>
    .obj (keys.filter (· ≠ protoKey)) (distinct.filter _) fun k =>
      if isSensitiveKey toLowerCase k.1 then .str REDACTION_TOKEN
      else redactSensitiveAttributes (value ⟨k.1,List.mem_of_mem_filter k.2⟩)

end Values

section Spelling

/-- The words with nothing between them, or one character that is no letter or digit. -/
def Spelled : List (List CodeUnit) → List CodeUnit → Prop
  | [],text => text = []
  | [word],text => text = word
  | word :: next :: words,text => ∃ rest, Spelled (next :: words) rest ∧
    (text = word ++ rest ∨ ∃ u, isAlnum u = false ∧ text = word ++ u :: rest)

def nameWords (name : String) : List (List CodeUnit) := (codeUnits name).splitOn underscore

/-- In lower case, the key contains one of the names in some spelling. -/
def Sensitive (toLowerCase : List CodeUnit → List CodeUnit) (key : List CodeUnit) : Prop :=
  ∃ name ∈ DEFAULT_SENSITIVE_KEYS, ∃ text, Spelled (nameWords name) text ∧
    text <:+: toLowerCase (trimUnits key)

theorem normalizeUnit_of_alnum {u : CodeUnit} (h : isAlnum u = true) : normalizeUnit u = u := by
  simp [normalizeUnit,h]

theorem normalizeUnit_of_not_alnum {u : CodeUnit} (h : isAlnum u = false) :
    normalizeUnit u = underscore := by
  by_cases hu : u = underscore
  · simp [normalizeUnit,hu]
  · simp [normalizeUnit,hu,h]

theorem eq_of_normalizeUnit {u v : CodeUnit} (hv : isAlnum v = true) (h : normalizeUnit u = v) :
    u = v := by
  cases hu : isAlnum u with
  | true => rwa [normalizeUnit_of_alnum hu] at h
  | false =>
    rw [normalizeUnit_of_not_alnum hu] at h
    rw [← h] at hv
    exact absurd hv (by decide)

theorem map_normalizeUnit {word : List CodeUnit} (h : ∀ u ∈ word, isAlnum u = true) :
    word.map normalizeUnit = word :=
  (List.map_congr_left fun u hu => normalizeUnit_of_alnum (h u hu)).trans (List.map_id _)

theorem eq_of_map_normalizeUnit {word text : List CodeUnit} (h : ∀ u ∈ word, isAlnum u = true)
    (heq : text.map normalizeUnit = word) : text = word := by
  induction word generalizing text with
  | nil => exact List.map_eq_nil_iff.mp heq
  | cons v word ih =>
    obtain ⟨hv,hword⟩ := List.forall_mem_cons.mp h
    obtain ⟨u,rest,rfl,hu,hrest⟩ := List.map_eq_cons_iff.mp heq
    rw [eq_of_normalizeUnit hv hu,ih hword hrest]

theorem not_alnum_of_normalizeUnit {u : CodeUnit} (h : normalizeUnit u = underscore) :
    isAlnum u = false := by
  by_contra hu
  have hu : isAlnum u = true := by simpa using hu
  rw [normalizeUnit_of_alnum hu] at h
  rw [h] at hu
  exact absurd hu (by decide)

theorem spelled_of_map {words : List (List CodeUnit)}
    (hwords : ∀ word ∈ words, ∀ u ∈ word, isAlnum u = true) {text : List CodeUnit}
    (h : text.map normalizeUnit = [underscore].intercalate words) : Spelled words text := by
  induction words generalizing text with
  | nil => exact List.map_eq_nil_iff.mp h
  | cons word words ih =>
    obtain ⟨hword,hrest⟩ := List.forall_mem_cons.mp hwords
    cases words with
    | nil => exact eq_of_map_normalizeUnit hword (by simpa [List.intercalate] using h)
    | cons next words =>
      have hjoin : [underscore].intercalate (word :: next :: words) =
          word ++ underscore :: [underscore].intercalate (next :: words) := by
        simp [List.intercalate,List.intersperse]
      rw [hjoin] at h
      obtain ⟨first,rest,rfl,hfirst,hrest'⟩ := List.map_eq_append_iff.mp h
      obtain ⟨u,rest,rfl,hu,hmap⟩ := List.map_eq_cons_iff.mp hrest'
      rw [eq_of_map_normalizeUnit hword hfirst]
      exact ⟨rest,ih hrest hmap,.inr ⟨u,not_alnum_of_normalizeUnit hu,rfl⟩⟩

theorem words_alnum : ∀ name ∈ DEFAULT_SENSITIVE_KEYS, ∀ word ∈ nameWords name,
    ∀ u ∈ word, isAlnum u = true := by
  have hall : DEFAULT_SENSITIVE_KEYS.all
      (fun name => (nameWords name).all fun word => word.all isAlnum) = true := by decide
  intro name hname word hword
  exact List.all_eq_true.mp (List.all_eq_true.mp (List.all_eq_true.mp hall name hname) word hword)

variable {toLowerCase : List CodeUnit → List CodeUnit} {key : List CodeUnit}

theorem isSensitiveKey_iff : isSensitiveKey toLowerCase key = true ↔
    ∃ name ∈ DEFAULT_SENSITIVE_KEYS, ∃ text, text <:+: toLowerCase (trimUnits key) ∧
      text.map normalizeUnit = codeUnits name := by
  simp only [isSensitiveKey,List.any_eq_true,decide_eq_true_eq,List.infix_map_iff]
  refine exists_congr fun name => and_congr_right fun _ => exists_congr fun text => ?_
  exact and_congr_right fun _ => eq_comm

theorem isSensitiveKey_of_found (name : String) (hname : name ∈ DEFAULT_SENSITIVE_KEYS)
    {text : List CodeUnit} (htext : text <:+: toLowerCase (trimUnits key))
    (h : codeUnits name <:+: text.map normalizeUnit) : isSensitiveKey toLowerCase key = true := by
  simp only [isSensitiveKey,List.any_eq_true,decide_eq_true_eq]
  exact ⟨name,hname,h.trans (htext.map normalizeUnit)⟩

theorem sensitive_of_isSensitiveKey (h : isSensitiveKey toLowerCase key = true) :
    Sensitive toLowerCase key := by
  obtain ⟨name,hname,text,htext,hmap⟩ := isSensitiveKey_iff.mp h
  refine ⟨name,hname,text,spelled_of_map (words_alnum name hname) ?_,htext⟩
  rw [hmap,nameWords,List.intercalate_splitOn]

theorem isSensitiveKey_of_one_word {name : String} (hname : name ∈ DEFAULT_SENSITIVE_KEYS)
    (hword : nameWords name = [codeUnits name]) {text : List CodeUnit}
    (hspelled : Spelled (nameWords name) text) (htext : text <:+: toLowerCase (trimUnits key)) :
    isSensitiveKey toLowerCase key = true := by
  have halnum := words_alnum name hname
  rw [hword] at hspelled halnum
  obtain rfl : text = codeUnits name := hspelled
  refine isSensitiveKey_of_found _ hname htext ?_
  rw [map_normalizeUnit (halnum _ (List.mem_singleton_self _))]

/-- Two words with a character between them are found, so that they can only hide as one word. -/
theorem two_words_cases {name : String} (hname : name ∈ DEFAULT_SENSITIVE_KEYS)
    {first second : List CodeUnit} (hwords : nameWords name = [first,second]) {text : List CodeUnit}
    (hspelled : Spelled (nameWords name) text) (htext : text <:+: toLowerCase (trimUnits key)) :
    isSensitiveKey toLowerCase key = true ∨ text = first ++ second := by
  have halnum := words_alnum name hname
  have hjoin : [underscore].intercalate (nameWords name) = codeUnits name :=
    List.intercalate_splitOn underscore
  rw [hwords] at hspelled halnum hjoin
  obtain ⟨rest,rfl,rfl | ⟨u,hu,rfl⟩⟩ := hspelled
  · exact .inr rfl
  · refine .inl (isSensitiveKey_of_found _ hname htext ?_)
    rw [List.map_append,List.map_cons,normalizeUnit_of_not_alnum hu,
      map_normalizeUnit (halnum first List.mem_cons_self),
      map_normalizeUnit (halnum rest (List.mem_cons_of_mem _ List.mem_cons_self)),← hjoin]
    simp [List.intercalate,List.intersperse]

def privateKeyWord : List CodeUnit := codeUnits "privatekey"

/-- The code finds every spelling of the names but one: `private_key` as one word. -/
theorem sensitive_iff : Sensitive toLowerCase key ↔
    isSensitiveKey toLowerCase key = true ∨ privateKeyWord <:+: toLowerCase (trimUnits key) := by
  constructor
  · rintro ⟨name,hname,text,hspelled,htext⟩
    have hone : nameWords name = [codeUnits name] → isSensitiveKey toLowerCase key = true ∨
        privateKeyWord <:+: toLowerCase (trimUnits key) :=
      fun hword => .inl (isSensitiveKey_of_one_word hname hword hspelled htext)
    have htwo : ∀ first second, nameWords name = [first,second] →
        isSensitiveKey toLowerCase key = true ∨ text = first ++ second :=
      fun _ _ hwords => two_words_cases hname hwords hspelled htext
    have hcases := hname
    simp only [DEFAULT_SENSITIVE_KEYS,List.mem_cons,List.not_mem_nil,or_false] at hcases
    rcases hcases with rfl | rfl | rfl | rfl | rfl | rfl | rfl | rfl | rfl | rfl | rfl | rfl | rfl
    · exact hone (by decide)
    · -- `apikey` is a name of its own
      rcases htwo (codeUnits "api") (codeUnits "key") (by decide) with h | rfl
      · exact .inl h
      · exact .inl (isSensitiveKey_of_found "apikey" (by decide) htext (by decide))
    · exact hone (by decide)
    · -- `token` is a part of it
      rcases htwo (codeUnits "access") (codeUnits "token") (by decide) with h | rfl
      · exact .inl h
      · exact .inl (isSensitiveKey_of_found "token" (by decide) htext (by decide))
    · rcases htwo (codeUnits "refresh") (codeUnits "token") (by decide) with h | rfl
      · exact .inl h
      · exact .inl (isSensitiveKey_of_found "token" (by decide) htext (by decide))
    · exact hone (by decide)
    · exact hone (by decide)
    · exact hone (by decide)
    · exact hone (by decide)
    · rcases htwo (codeUnits "private") (codeUnits "key") (by decide) with h | rfl
      · exact .inl h
      · exact .inr htext
    · exact hone (by decide)
    · exact hone (by decide)
    · exact hone (by decide)
  · rintro (h | h)
    · exact sensitive_of_isSensitiveKey h
    · have hwords : nameWords "private_key" = [codeUnits "private",codeUnits "key"] := by decide
      refine ⟨"private_key",by decide,privateKeyWord,?_,h⟩
      rw [hwords]
      exact ⟨codeUnits "key",rfl,.inl (by decide)⟩

end Spelling

section Noninterference

variable {N : Type*}

/-- Values of one shape that differ at most in what is under the keys. -/
inductive AgreeOutside (hidden : List CodeUnit → Prop) : Json N → Json N → Prop
  | null : AgreeOutside hidden .null .null
  | bool (b : Bool) : AgreeOutside hidden (.bool b) (.bool b)
  | num (n : N) : AgreeOutside hidden (.num n) (.num n)
  | str (text : List CodeUnit) : AgreeOutside hidden (.str text) (.str text)
  | arr {length : ℕ} {item item' : Fin length → Json N}
      (h : ∀ i, AgreeOutside hidden (item i) (item' i)) :
      AgreeOutside hidden (.arr length item) (.arr length item')
  | obj {keys : List (List CodeUnit)} {distinct : keys.Nodup} {value value' : {k // k ∈ keys} → Json N}
      (h : ∀ k, ¬hidden k.1 → AgreeOutside hidden (value k) (value' k)) :
      AgreeOutside hidden (.obj keys distinct value) (.obj keys distinct value')

/-- Secrets do not show, nothing else changes, and a second time changes nothing. -/
structure Redacted (toLowerCase : List CodeUnit → List CodeUnit) (v : Json N) : Prop where
  hidden : ∀ w, AgreeOutside (Sensitive toLowerCase) v w →
    redactSensitiveAttributes toLowerCase v = redactSensitiveAttributes toLowerCase w
  preserved : AgreeOutside (Sensitive toLowerCase) v (redactSensitiveAttributes toLowerCase v)
  idempotent : redactSensitiveAttributes toLowerCase (redactSensitiveAttributes toLowerCase v) =
    redactSensitiveAttributes toLowerCase v

/-- Outside the redacted values no key is `__proto__`, and none has `private_key` as one word
and no name that is found. -/
def Clean (toLowerCase : List CodeUnit → List CodeUnit) : Json N → Prop
  | .arr _ item => ∀ i, Clean toLowerCase (item i)
  | .obj keys _ value => protoKey ∉ keys ∧ ∀ k, isSensitiveKey toLowerCase k.1 = true ∨
      ¬privateKeyWord <:+: toLowerCase (trimUnits k.1) ∧ Clean toLowerCase (value k)
  | _ => True

theorem AgreeOutside.refl {hidden : List CodeUnit → Prop} : ∀ v : Json N, AgreeOutside hidden v v
  | .null => .null
  | .bool b => .bool b
  | .num n => .num n
  | .str text => .str text
  | .arr _ item => .arr fun i => refl (item i)
  | .obj _ _ value => .obj fun k _ => refl (value k)

theorem obj_eq {keys keys' : List (List CodeUnit)} {distinct : keys.Nodup} {distinct' : keys'.Nodup}
    {value : {k // k ∈ keys} → Json N} {value' : {k // k ∈ keys'} → Json N} (hkeys : keys = keys')
    (h : ∀ k hk hk', value ⟨k,hk⟩ = value' ⟨k,hk'⟩) :
    Json.obj keys distinct value = .obj keys' distinct' value' := by
  subst hkeys
  congr 1
  exact funext fun ⟨k,hk⟩ => h k hk hk

variable {toLowerCase : List CodeUnit → List CodeUnit}

theorem filter_protoKey {keys : List (List CodeUnit)} (h : protoKey ∉ keys) :
    keys.filter (· ≠ protoKey) = keys :=
  List.filter_eq_self.mpr fun k hk => by
    have hne : k ≠ protoKey := fun heq => h (heq ▸ hk)
    simpa using hne

theorem redact_obj {keys : List (List CodeUnit)} {distinct : keys.Nodup}
    {value : {k // k ∈ keys} → Json N} (h : protoKey ∉ keys) :
    redactSensitiveAttributes toLowerCase (.obj keys distinct value) = .obj keys distinct fun k =>
      if isSensitiveKey toLowerCase k.1 then .str REDACTION_TOKEN
      else redactSensitiveAttributes toLowerCase (value k) :=
  obj_eq (filter_protoKey h) fun _ _ _ => rfl

theorem not_sensitive {key : List CodeUnit} (hfound : ¬isSensitiveKey toLowerCase key = true)
    (hword : ¬privateKeyWord <:+: toLowerCase (trimUnits key)) : ¬Sensitive toLowerCase key :=
  fun h => (sensitive_iff.mp h).elim hfound hword

theorem redacted_of_clean (v : Json N) (hclean : Clean toLowerCase v) : Redacted toLowerCase v := by
  induction v with
  | null => exact ⟨fun w h => by cases h; rfl,.null,rfl⟩
  | bool b => exact ⟨fun w h => by cases h; rfl,.bool b,rfl⟩
  | num n => exact ⟨fun w h => by cases h; rfl,.num n,rfl⟩
  | str text => exact ⟨fun w h => by cases h; rfl,.str text,rfl⟩
  | arr length item ih =>
    have hitem := fun i => ih i (hclean i)
    refine ⟨fun w h => ?_,.arr fun i => (hitem i).preserved,?_⟩
    · cases h with
      | arr h => exact congrArg (Json.arr length) (funext fun i => (hitem i).hidden _ (h i))
    · exact congrArg (Json.arr length) (funext fun i => (hitem i).idempotent)
  | obj keys distinct value ih =>
    obtain ⟨hproto,hkeys⟩ := hclean
    have hvalue : ∀ k, ¬isSensitiveKey toLowerCase k.1 = true →
        ¬Sensitive toLowerCase k.1 ∧ Redacted toLowerCase (value k) := fun k hk =>
      have hclean := (hkeys k).resolve_left hk
      ⟨not_sensitive hk hclean.1,ih k hclean.2⟩
    refine ⟨fun w h => ?_,?_,?_⟩
    · cases h with
      | obj h =>
        rw [redact_obj hproto,redact_obj hproto]
        refine obj_eq rfl fun k hk _ => ?_
        split
        · rfl
        · next hfound =>
          obtain ⟨hnot,hredacted⟩ := hvalue ⟨k,hk⟩ hfound
          exact hredacted.hidden _ (h ⟨k,hk⟩ hnot)
    · rw [redact_obj hproto]
      refine .obj fun k hnot => ?_
      have hfound : ¬isSensitiveKey toLowerCase k.1 = true :=
        fun hfound => hnot (sensitive_of_isSensitiveKey hfound)
      rw [if_neg hfound]
      exact (hvalue k hfound).2.preserved
    · rw [redact_obj hproto,redact_obj hproto]
      refine obj_eq rfl fun k hk _ => ?_
      split
      · rfl
      · next hfound => exact (hvalue ⟨k,hk⟩ hfound).2.idempotent

theorem exists_redacted_ne (toLowerCase : List CodeUnit → List CodeUnit) (v : Json N) : ∃ w : Json N,
    redactSensitiveAttributes toLowerCase w ≠ redactSensitiveAttributes toLowerCase v := by
  by_cases h : redactSensitiveAttributes toLowerCase v = .null
  · exact ⟨.bool true,by rw [h]; simp [redactSensitiveAttributes]⟩
  · exact ⟨.null,fun heq => h heq.symm⟩

theorem AgreeOutside.keys_eq {hidden : List CodeUnit → Prop} {keys keys' : List (List CodeUnit)}
    {distinct : keys.Nodup} {distinct' : keys'.Nodup} {value : {k // k ∈ keys} → Json N}
    {value' : {k // k ∈ keys'} → Json N}
    (h : AgreeOutside hidden (.obj keys distinct value) (.obj keys' distinct' value')) :
    keys = keys' := by
  cases h
  rfl

theorem AgreeOutside.value {hidden : List CodeUnit → Prop} {keys : List (List CodeUnit)}
    {distinct distinct' : keys.Nodup} {value value' : {k // k ∈ keys} → Json N}
    (h : AgreeOutside hidden (.obj keys distinct value) (.obj keys distinct' value'))
    (k : {k // k ∈ keys}) (hk : ¬hidden k.1) : AgreeOutside hidden (value k) (value' k) := by
  cases h with
  | obj h => exact h k hk

theorem AgreeOutside.item {hidden : List CodeUnit → Prop} {length : ℕ}
    {item item' : Fin length → Json N}
    (h : AgreeOutside hidden (.arr length item) (.arr length item')) (i : Fin length) :
    AgreeOutside hidden (item i) (item' i) := by
  cases h with
  | arr h => exact h i

theorem value_eq {keys : List (List CodeUnit)} {distinct distinct' : keys.Nodup}
    {value value' : {k // k ∈ keys} → Json N}
    (h : Json.obj keys distinct value = .obj keys distinct' value') (k : {k // k ∈ keys}) :
    value k = value' k := by
  cases h
  rfl

theorem item_eq {length : ℕ} {item item' : Fin length → Json N}
    (h : Json.arr length item = .arr length item') (i : Fin length) : item i = item' i := by
  cases h
  rfl

theorem clean_of_redacted (v : Json N) (h : Redacted toLowerCase v) : Clean toLowerCase v := by
  induction v with
  | null => trivial
  | bool b => trivial
  | num n => trivial
  | str text => trivial
  | arr length item ih =>
    refine fun i => ih i ⟨fun w hw => ?_,h.preserved.item i,item_eq h.idempotent i⟩
    have hagree : AgreeOutside (Sensitive toLowerCase) (.arr length item)
        (.arr length (Function.update item i w)) := by
      refine .arr fun j => ?_
      by_cases hj : j = i
      · subst hj
        rwa [Function.update_self]
      · rw [Function.update_of_ne hj]
        exact .refl _
    have heq := item_eq (h.hidden _ hagree) i
    rwa [Function.update_self] at heq
  | obj keys distinct value ih =>
    have hproto : protoKey ∉ keys := by
      intro hmem
      rw [h.preserved.keys_eq] at hmem
      simpa using (List.mem_filter.mp hmem).2
    have hupdate : ∀ k w, (¬Sensitive toLowerCase k.1 →
        AgreeOutside (Sensitive toLowerCase) (value k) w) →
        AgreeOutside (Sensitive toLowerCase) (.obj keys distinct value)
          (.obj keys distinct (Function.update value k w)) := by
      intro k w hw
      refine .obj fun j hj => ?_
      by_cases hjk : j = k
      · subst hjk
        rw [Function.update_self]
        exact hw hj
      · rw [Function.update_of_ne hjk]
        exact .refl _
    refine ⟨hproto,fun k => or_iff_not_imp_left.mpr fun hfound => ?_⟩
    have hsame : ∀ w, (¬Sensitive toLowerCase k.1 →
        AgreeOutside (Sensitive toLowerCase) (value k) w) →
        redactSensitiveAttributes toLowerCase (value k) = redactSensitiveAttributes toLowerCase w := by
      intro w hw
      have heq := h.hidden _ (hupdate k w hw)
      rw [redact_obj hproto,redact_obj hproto] at heq
      have heq := value_eq heq k
      simp only [if_neg hfound,Function.update_self] at heq
      exact heq
    have hword : ¬privateKeyWord <:+: toLowerCase (trimUnits k.1) := by
      intro hword
      obtain ⟨w,hw⟩ := exists_redacted_ne toLowerCase (value k)
      exact hw (hsame w fun hnot => absurd (sensitive_iff.mpr (.inr hword)) hnot).symm
    have hnot := not_sensitive hfound hword
    refine ⟨hword,ih k ⟨fun w hw => hsame w fun _ => hw,?_,?_⟩⟩
    · have hpreserved := h.preserved
      rw [redact_obj hproto] at hpreserved
      have hvalue := hpreserved.value k hnot
      simp only [if_neg hfound] at hvalue
      exact hvalue
    · have hidempotent := h.idempotent
      rw [redact_obj hproto,redact_obj hproto] at hidempotent
      have hvalue := value_eq hidempotent k
      simp only [if_neg hfound] at hvalue
      exact hvalue

/-- Exactly the clean values are redacted as they should be. -/
theorem redacted_iff_clean (toLowerCase : List CodeUnit → List CodeUnit) (v : Json N) :
    Redacted toLowerCase v ↔ Clean toLowerCase v :=
  ⟨clean_of_redacted v,redacted_of_clean v⟩

def asciiLower (text : List CodeUnit) : List CodeUnit :=
  text.map fun u => if 65 ≤ u.val ∧ u.val ≤ 90 then u+32 else u

def privateKeyEntry : Json ℕ :=
  .obj [codeUnits "privateKey"] (List.nodup_singleton _) fun _ => .str (codeUnits "S1")

/-- A private key under the name `privateKey` is written to the log. -/
theorem not_redacted_privateKeyEntry : ¬Redacted asciiLower privateKeyEntry := by
  intro h
  rcases (clean_of_redacted _ h).2 ⟨codeUnits "privateKey",List.mem_singleton_self _⟩ with
    hfound | ⟨hword,-⟩
  · exact absurd hfound (by decide)
  · exact hword (by decide)

end Noninterference

end YieldVault.Backend
