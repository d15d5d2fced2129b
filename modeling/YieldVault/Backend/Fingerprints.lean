import YieldVault.JsonTexts

/-! The fingerprint of a request body, by which a repeated idempotency key is recognised. -/
namespace YieldVault.Backend

open JsonTexts Utf16

variable {N : Type*} (fmt : NumberFormat N)

def sortKeys (keys : List (List CodeUnit)) : List (List CodeUnit) := keys.insertionSort (· ≤ ·)

theorem mem_sortKeys {keys : List (List CodeUnit)} {k : List CodeUnit} :
    k ∈ sortKeys keys ↔ k ∈ keys := List.mem_insertionSort _

def stableStringify : Json N → List Char
  | .null => "null".toList
  | .bool b => if b then "true".toList else "false".toList
  | .num n => fmt.text n
  | .str text => quote text
  | .arr _ item => '[' :: [','].intercalate (List.ofFn fun i => stableStringify (item i)) ++ [']']
  | .obj keys _ value => '{' :: [','].intercalate ((sortKeys keys).attach.map fun k =>
      quote k.val ++ ':' :: stableStringify (value ⟨k.val,mem_sortKeys.mp k.property⟩)) ++ ['}']

/-- The threshold is `none` where the setting is no number. -/
def buildIdempotencyFingerprint (sha256 : String → String) (threshold : Option ℤ)
    (payload : Json N) : String :=
  let stable := String.ofList (stableStringify fmt payload)
  let byteLength := stable.utf8ByteSize
  if ∃ limit ∈ threshold, limit < byteLength then "hashv1:" ++ sha256 stable else stable

section Leads

def valueKind : Json N → ℕ
  | .null => 0
  | .bool _ => 1
  | .num _ => 2
  | .str _ => 3
  | .arr _ _ => 4
  | .obj _ _ _ => 5

/-- The kind of value whose text starts with a character. -/
def kindOf (c : Char) : Option ℕ :=
  if c ∈ "0123456789+-.e".toList then some 2
  else [('n',0),('t',1),('f',1),('"',3),('[',4),('{',5)].lookup c

variable {fmt} {v w : Json N} {a b : List Char}

theorem stableStringify_head (fmt : NumberFormat N) (v : Json N) :
    ∃ c rest, stableStringify fmt v = c :: rest ∧ kindOf c = some (valueKind v) := by
  cases v with
  | null => exact ⟨'n',_,rfl,(by decide : kindOf 'n' = some 0)⟩
  | bool b =>
    cases b with
    | false => exact ⟨'f',_,rfl,(by decide : kindOf 'f' = some 1)⟩
    | true => exact ⟨'t',_,rfl,(by decide : kindOf 't' = some 1)⟩
  | num n =>
    obtain ⟨c,rest,htext⟩ := List.exists_cons_of_ne_nil (fmt.nonempty n)
    exact ⟨c,rest,htext,if_pos (fmt.numeric n c (htext ▸ List.mem_cons_self))⟩
  | str text => exact ⟨'"',_,rfl,(by decide : kindOf '"' = some 3)⟩
  | arr length item => exact ⟨'[',_,rfl,(by decide : kindOf '[' = some 4)⟩
  | obj keys distinct value => exact ⟨'{',_,rfl,(by decide : kindOf '{' = some 5)⟩

theorem kind_eq (h : stableStringify fmt v ++ a = stableStringify fmt w ++ b) :
    valueKind v = valueKind w := by
  obtain ⟨c,rest,hv,hc⟩ := stableStringify_head fmt v
  obtain ⟨d,rest',hw,hd⟩ := stableStringify_head fmt w
  rw [hv,hw] at h
  rw [(List.cons.inj h).1,hd] at hc
  exact (Option.some.inj hc).symm

theorem stableStringify_ne (v : Json N) {close : Char} (hclose : kindOf close = none) :
    stableStringify fmt v ++ a ≠ close :: b := by
  obtain ⟨c,rest,hv,hc⟩ := stableStringify_head fmt v
  intro h
  rw [hv] at h
  rw [(List.cons.inj h).1,hclose] at hc
  cases hc

end Leads

section Members

variable {fmt} {keys keys' : List (List CodeUnit)} {value : {k // k ∈ keys} → Json N}
  {value' : {k // k ∈ keys'} → Json N}

def members (keys : List (List CodeUnit)) (value : {k // k ∈ keys} → Json N) :
    List (List CodeUnit × Json N) :=
  (sortKeys keys).attach.map fun k => (k.val,value ⟨k.val,mem_sortKeys.mp k.property⟩)

def memberText (fmt : NumberFormat N) (x : List CodeUnit × Json N) : List Char :=
  quote x.1 ++ ':' :: stableStringify fmt x.2

theorem stableStringify_arr {length : ℕ} (item : Fin length → Json N) :
    stableStringify fmt (.arr length item) =
      '[' :: [','].intercalate ((List.ofFn item).map (stableStringify fmt)) ++ [']'] := by
  rw [stableStringify,List.map_ofFn]
  rfl

theorem stableStringify_obj (distinct : keys.Nodup) :
    stableStringify fmt (.obj keys distinct value) =
      '{' :: [','].intercalate ((members keys value).map (memberText fmt)) ++ ['}'] := by
  rw [stableStringify,members,List.map_map]
  rfl

theorem mem_members {x : List CodeUnit × Json N} :
    x ∈ members keys value ↔ ∃ hk : x.1 ∈ keys, x.2 = value ⟨x.1,hk⟩ := by
  rw [members,List.mem_map]
  constructor
  · rintro ⟨k,-,rfl⟩
    exact ⟨mem_sortKeys.mp k.property,rfl⟩
  · rintro ⟨hk,hvalue⟩
    exact ⟨⟨x.1,mem_sortKeys.mpr hk⟩,List.mem_attach _ _,Prod.ext rfl hvalue.symm⟩

theorem member_mem {k : List CodeUnit} (hk : k ∈ keys) : (k,value ⟨k,hk⟩) ∈ members keys value :=
  mem_members.mpr ⟨hk,rfl⟩

theorem exists_of_forall₂ {A B : Type*} {R : A → B → Prop} {xs : List A} {ys : List B}
    (h : List.Forall₂ R xs ys) {x : A} (hx : x ∈ xs) : ∃ y ∈ ys, R x y := by
  induction h with
  | nil => cases hx
  | cons hR _ ih =>
    rcases List.mem_cons.mp hx with rfl | hx
    · exact ⟨_,List.mem_cons_self,hR⟩
    · obtain ⟨y,hy,hR⟩ := ih hx
      exact ⟨y,List.mem_cons_of_mem _ hy,hR⟩

theorem same_of_items {m n : ℕ} {item : Fin m → Json N} {item' : Fin n → Json N}
    (h : List.Forall₂ Same (List.ofFn item) (List.ofFn item')) :
    Same (.arr m item) (.arr n item') := by
  obtain ⟨hlength,hall⟩ := List.forall₂_iff_get.mp h
  rw [List.length_ofFn,List.length_ofFn] at hlength
  subst hlength
  refine .arr fun i => ?_
  have hi := hall i (by simp) (by simp)
  simpa using hi

theorem same_of_members {distinct : keys.Nodup} {distinct' : keys'.Nodup}
    (h : List.Forall₂ (fun x y => x.1 = y.1 ∧ Same x.2 y.2) (members keys value)
      (members keys' value')) : Same (.obj keys distinct value) (.obj keys' distinct' value') := by
  have hflip : List.Forall₂ (fun y x => x.1 = y.1 ∧ Same x.2 y.2) (members keys' value')
      (members keys value) := h.flip
  refine .obj (fun k => ⟨fun hk => ?_,fun hk => ?_⟩) fun k hk hk' => ?_
  · obtain ⟨⟨k',w⟩,hy,rfl,-⟩ := exists_of_forall₂ h (member_mem hk)
    exact (mem_members.mp hy).1
  · obtain ⟨⟨k',v⟩,hx,rfl,-⟩ := exists_of_forall₂ hflip (member_mem hk)
    exact (mem_members.mp hx).1
  · obtain ⟨⟨k',w⟩,hy,rfl,hsame⟩ := exists_of_forall₂ h (member_mem hk)
    obtain ⟨_,hw⟩ := mem_members.mp hy
    exact hw ▸ hsame

end Members

section Injectivity

variable {fmt} {v w : Json N}

/-- A value can be told from its text, up to the order of keys, and ends where its text ends. -/
theorem stableStringify_append_inj {a b : List Char} (ha : Ends a) (hb : Ends b)
    (h : stableStringify fmt v ++ a = stableStringify fmt w ++ b) : Same v w ∧ a = b := by
  have hkind := kind_eq h
  induction v generalizing w a b with
  | null => cases w with
    | null => exact ⟨.null,List.append_cancel_left h⟩
    | _ => cases hkind
  | bool c => cases w with
    | bool d =>
      cases c with
      | false => cases d with
        | false => exact ⟨.bool false,List.append_cancel_left h⟩
        | true => exact absurd (List.cons.inj h).1 (by decide)
      | true => cases d with
        | false => exact absurd (List.cons.inj h).1 (by decide)
        | true => exact ⟨.bool true,List.append_cancel_left h⟩
    | _ => cases hkind
  | num m => cases w with
    | num n =>
      obtain ⟨rfl,hend⟩ := fmt.append_inj ha hb h
      exact ⟨.num m,hend⟩
    | _ => cases hkind
  | str text => cases w with
    | str text' =>
      obtain ⟨rfl,hend⟩ := quote_append_inj h
      exact ⟨.str text,hend⟩
    | _ => cases hkind
  | arr length item ih => cases w with
    | arr length' item' =>
      rw [stableStringify_arr,stableStringify_arr] at h
      simp only [List.cons_append,List.append_assoc,List.nil_append,List.cons.injEq,true_and] at h
      have hne : ∀ (x : Json N) (a b : List Char), stableStringify fmt x ++ a ≠ ']' :: b :=
        fun x _ _ => stableStringify_ne x (by decide)
      obtain ⟨hall,hend⟩ := joined_append_inj (R := Same) (Or.inl rfl) (fun x _ => hne x)
        (fun y _ => hne y) (fun x hx y _ a b ha hb h => by
          obtain ⟨i,rfl⟩ := List.mem_ofFn.mp hx
          exact ih i ha hb h (kind_eq h)) h
      exact ⟨same_of_items hall,hend⟩
    | _ => cases hkind
  | obj keys distinct value ih => cases w with
    | obj keys' distinct' value' =>
      rw [stableStringify_obj,stableStringify_obj] at h
      simp only [List.cons_append,List.append_assoc,List.nil_append,List.cons.injEq,true_and] at h
      have hne : ∀ (x : List CodeUnit × Json N) (a b : List Char), memberText fmt x ++ a ≠ '}' :: b :=
        fun x _ _ h => absurd (List.cons.inj h).1 (by decide)
      obtain ⟨hall,hend⟩ := joined_append_inj (R := fun x y => x.1 = y.1 ∧ Same x.2 y.2)
        (Or.inr rfl) (fun x _ => hne x) (fun y _ => hne y) (fun x hx y _ a b ha hb h => by
          rw [memberText,memberText,List.append_assoc,List.append_assoc] at h
          obtain ⟨hkey,hvalue⟩ := quote_append_inj h
          have hvalue := (List.cons.inj hvalue).2
          obtain ⟨hk,hx⟩ := mem_members.mp hx
          rw [hx] at hvalue ⊢
          obtain ⟨hsame,hend⟩ := ih _ ha hb hvalue (kind_eq hvalue)
          exact ⟨⟨hkey,hsame⟩,hend⟩) h
      exact ⟨same_of_members hall,hend⟩
    | _ => cases hkind

theorem sortKeys_eq {keys keys' : List (List CodeUnit)} (distinct : keys.Nodup)
    (distinct' : keys'.Nodup) (h : ∀ k, k ∈ keys ↔ k ∈ keys') : sortKeys keys = sortKeys keys' := by
  have hperm := (List.perm_ext_iff_of_nodup distinct distinct').mpr h
  refine ((List.perm_insertionSort _ _).trans (hperm.trans
    (List.perm_insertionSort _ _).symm)).eq_of_pairwise (fun a b _ _ hab hba => le_antisymm hab hba)
    (List.pairwise_insertionSort _ _) (List.pairwise_insertionSort _ _)

theorem attach_map_congr {A B : Type*} {xs ys : List A} {f : {x // x ∈ xs} → B}
    {g : {x // x ∈ ys} → B} (hxy : xs = ys) (h : ∀ x hx hy, f ⟨x,hx⟩ = g ⟨x,hy⟩) :
    xs.attach.map f = ys.attach.map g := by
  subst hxy
  exact List.map_congr_left fun x _ => h x.val x.property x.property

theorem stableStringify_same (h : Same v w) : stableStringify fmt v = stableStringify fmt w := by
  induction h with
  | null => rfl
  | bool b => rfl
  | num n => rfl
  | str text => rfl
  | arr _ ih => simp only [stableStringify,ih]
  | @obj keys keys' distinct distinct' value value' hkeys _ ih =>
    have hmembers := attach_map_congr (sortKeys_eq distinct distinct' hkeys)
      (f := fun k => quote k.val ++ ':' ::
        stableStringify fmt (value ⟨k.val,mem_sortKeys.mp k.property⟩))
      (g := fun k => quote k.val ++ ':' ::
        stableStringify fmt (value' ⟨k.val,mem_sortKeys.mp k.property⟩))
      fun k hk hk' => by rw [ih k (mem_sortKeys.mp hk) (mem_sortKeys.mp hk')]
    simp only [stableStringify,hmembers]

theorem stableStringify_eq_iff : stableStringify fmt v = stableStringify fmt w ↔ Same v w := by
  refine ⟨fun h => ?_,stableStringify_same⟩
  have hends : Ends [] := fun c hc => by simp at hc
  exact (stableStringify_append_inj hends hends (congrArg (· ++ []) h)).1

end Injectivity

/-- No body's text looks like a hash. -/
theorem stable_ne_hash (fmt : NumberFormat N) (v : Json N) (digest : String) :
    String.ofList (stableStringify fmt v) ≠ "hashv1:" ++ digest := by
  intro h
  have hlist := congrArg String.toList h
  rw [String.toList_ofList,String.toList_append] at hlist
  have hne : stableStringify fmt v ++ [] ≠ 'h' :: ("ashv1:".toList ++ digest.toList) :=
    stableStringify_ne v (by decide)
  rw [List.append_nil] at hne
  exact hne hlist

/-- Equal fingerprints are those of equal bodies, hashed or not. -/
theorem fingerprint_eq_iff (fmt : NumberFormat N) {sha256 : String → String}
    (hsha : Function.Injective sha256) (threshold : Option ℤ) (v w : Json N) :
    buildIdempotencyFingerprint fmt sha256 threshold v =
      buildIdempotencyFingerprint fmt sha256 threshold w ↔ Same v w := by
  have htext : String.ofList (stableStringify fmt v) = String.ofList (stableStringify fmt w) ↔
      Same v w := by
    rw [String.ofList_inj,stableStringify_eq_iff]
  constructor
  · intro h
    simp only [buildIdempotencyFingerprint] at h
    split_ifs at h
    · exact htext.mp (hsha ((String.append_right_inj "hashv1:").mp h))
    · exact absurd h.symm (stable_ne_hash fmt w _)
    · exact absurd h (stable_ne_hash fmt v _)
    · exact htext.mp h
  · intro h
    simp only [buildIdempotencyFingerprint,htext.mpr h]

section Examples

def digitFormat : NumberFormat (Fin 10) where
  text n := [Nat.digitChar n]
  injective := by decide
  nonempty n := List.cons_ne_nil _ _
  numeric n c hc := by
    have hdigits : ∀ n : Fin 10, Nat.digitChar n ∈ "0123456789+-.e".toList := by decide
    exact List.mem_singleton.mp hc ▸ hdigits n

def keyA : List CodeUnit := [97]

def keyB : List CodeUnit := [98]

/-- `{"a":1,"b":[2]}`, with its keys set in one order and in the other. -/
def body (keys : List (List CodeUnit)) (distinct : keys.Nodup) : Json (Fin 10) :=
  .obj keys distinct fun k => if k.val = keyA then .num 1 else .arr 1 fun _ => .num 2

example : String.ofList (stableStringify digitFormat (body [keyB,keyA] (by decide))) =
    "\x7b\"a\":1,\"b\":[2]\x7d" := by decide

theorem body_fingerprint :
    buildIdempotencyFingerprint digitFormat id (some 4096) (body [keyB,keyA] (by decide)) =
      buildIdempotencyFingerprint digitFormat id (some 4096) (body [keyA,keyB] (by decide)) :=
  (fingerprint_eq_iff digitFormat Function.injective_id (some 4096) _ _).mpr
    (.obj (fun k => (List.Perm.swap keyA keyB []).mem_iff) fun k hk hk' => by
      dsimp only
      split_ifs
      · exact .num 1
      · exact .arr fun _ => .num 2)

end Examples

end YieldVault.Backend
