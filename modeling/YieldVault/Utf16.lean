import Mathlib.Tactic

/-! Texts as UTF-16: the code units of characters, and the code points of a text whose
surrogates need not be paired. -/
namespace Utf16

abbrev CodeUnit := Fin 65536

instance neZero_unitCount : NeZero 65536 := ⟨by decide⟩

def charUnits (c : Char) : List ℕ :=
  if c.toNat < 0x10000 then [c.toNat]
  else [0xD800+(c.toNat-0x10000)/0x400,0xDC00+(c.toNat-0x10000)%0x400]

/-- The first character can be told from the code units: the two of a pair are no characters. -/
theorem charUnits_append_inj {c d : Char} {xs ys : List ℕ}
    (h : charUnits c ++ xs = charUnits d ++ ys) : c = d ∧ xs = ys := by
  have hc : c.toNat < 0xD800 ∨ 0xDFFF < c.toNat ∧ c.toNat < 0x110000 := c.valid
  have hd : d.toNat < 0xD800 ∨ 0xDFFF < d.toNat ∧ d.toNat < 0x110000 := d.valid
  have hinj : c.toNat = d.toNat → c = d := fun he => Char.toNat_inj.mp he
  unfold charUnits at h
  split_ifs at h with h1 h2 h2
  all_goals simp only [List.cons_append,List.nil_append,List.cons.injEq] at h
  · exact ⟨hinj h.1,h.2⟩
  · omega
  · omega
  · exact ⟨hinj (by omega),h.2.2⟩

theorem flatMap_charUnits_inj {cs ds : List Char}
    (h : cs.flatMap charUnits = ds.flatMap charUnits) : cs = ds := by
  have hne : ∀ c, charUnits c ≠ [] := by
    intro c
    unfold charUnits
    split_ifs <;> simp
  induction cs generalizing ds with
  | nil =>
    cases ds with
    | nil => rfl
    | cons d ds => simp [hne] at h
  | cons c cs ih =>
    cases ds with
    | nil => simp [hne] at h
    | cons d ds =>
      obtain ⟨rfl,hrest⟩ := charUnits_append_inj h
      rw [ih hrest]

section CodePoints

def IsHigh (u : CodeUnit) : Prop := 0xD800 ≤ u.val ∧ u.val < 0xDC00

def IsLow (u : CodeUnit) : Prop := 0xDC00 ≤ u.val ∧ u.val < 0xE000

instance (u : CodeUnit) : Decidable (IsHigh u) := inferInstanceAs (Decidable (_ ∧ _))

instance (u : CodeUnit) : Decidable (IsLow u) := inferInstanceAs (Decidable (_ ∧ _))

/-- A character, or a surrogate without its other half. -/
inductive CodePoint
  | scalar (c : Char)
  | lone (u : CodeUnit) (surrogate : IsHigh u ∨ IsLow u)

def pairChar (high low : CodeUnit) : Char :=
  Char.ofNat (0x10000+(high.val-0xD800)*0x400+(low.val-0xDC00))

def single (u : CodeUnit) : CodePoint :=
  if h : IsHigh u ∨ IsLow u then .lone u h else .scalar (Char.ofNat u.val)

def codePoints : List CodeUnit → List CodePoint
  | [] => []
  | [u] => [single u]
  | u::v::rest =>
    if IsHigh u ∧ IsLow v then .scalar (pairChar u v) :: codePoints rest
    else single u :: codePoints (v :: rest)

def CodePoint.units : CodePoint → List ℕ
  | .scalar c => charUnits c
  | .lone u _ => [u.val]

theorem toNat_ofNat {n : ℕ} (h : n < 0xD800 ∨ 0xDFFF < n ∧ n < 0x110000) :
    (Char.ofNat n).toNat = n := by
  rw [Char.ofNat,dif_pos (show n.isValidChar from h)]
  rfl

theorem units_single (u : CodeUnit) : (single u).units = [u.val] := by
  unfold single
  split_ifs with h
  · rfl
  · have hn : (Char.ofNat u.val).toNat = u.val := by
      unfold IsHigh IsLow at h
      exact toNat_ofNat (by omega)
    rw [CodePoint.units,charUnits,hn,if_pos u.isLt]

theorem units_pair {u v : CodeUnit} (hu : IsHigh u) (hv : IsLow v) :
    charUnits (pairChar u v) = [u.val,v.val] := by
  unfold IsHigh at hu
  unfold IsLow at hv
  have hn : (pairChar u v).toNat = 0x10000+(u.val-0xD800)*0x400+(v.val-0xDC00) :=
    toNat_ofNat (by omega)
  rw [charUnits,hn,if_neg (by omega)]
  simp only [List.cons.injEq,and_true]
  omega

theorem CodePoint.units_injective : Function.Injective CodePoint.units := by
  have hmixed : ∀ {c : Char} {u : CodeUnit}, IsHigh u ∨ IsLow u → charUnits c ≠ [u.val] := by
    intro c u hu h
    have hc : c.toNat < 0xD800 ∨ 0xDFFF < c.toNat ∧ c.toNat < 0x110000 := c.valid
    unfold IsHigh IsLow at hu
    unfold charUnits at h
    split_ifs at h with hbmp
    · have hn := (List.cons.inj h).1
      omega
    · cases (List.cons.inj h).2
  intro p q h
  cases p with
  | scalar c =>
    cases q with
    | scalar d => rw [(charUnits_append_inj (congrArg (· ++ ([] : List ℕ)) h)).1]
    | lone v hv => exact absurd h (hmixed hv)
  | lone u hu =>
    cases q with
    | scalar d => exact absurd h.symm (hmixed hu)
    | lone v hv =>
      obtain rfl : u = v := Fin.ext (List.cons.inj h).1
      rfl

theorem units_codePoints (us : List CodeUnit) :
    (codePoints us).flatMap CodePoint.units = us.map Fin.val := by
  induction us using codePoints.induct with
  | case1 => rfl
  | case2 u => simp [codePoints,units_single]
  | case3 u v rest h ih => simp [codePoints,h,ih,CodePoint.units,units_pair h.1 h.2]
  | case4 u v rest h ih => simp [codePoints,h,ih,units_single]

theorem codePoints_injective : Function.Injective codePoints := by
  intro us vs h
  have hunits := congrArg (List.flatMap CodePoint.units) h
  rw [units_codePoints,units_codePoints] at hunits
  exact List.map_injective_iff.mpr Fin.val_injective hunits

end CodePoints

section Characters

def units (text : List Char) : List CodeUnit := (text.flatMap charUnits).map (Fin.ofNat 65536)

/-- The replacement character stands for a surrogate without its other half. -/
def CodePoint.char : CodePoint → Char
  | .scalar c => c
  | .lone _ _ => Char.ofNat 0xFFFD

def wellFormed (text : List CodeUnit) : List Char := (codePoints text).map CodePoint.char

variable {cs : List Char} {text : List CodeUnit}

theorem charUnits_lt (c : Char) : ∀ n ∈ charUnits c, n < 65536 := by
  have hc : c.toNat < 0xD800 ∨ 0xDFFF < c.toNat ∧ c.toNat < 0x110000 := c.valid
  unfold charUnits
  split_ifs with h
  · simpa using h
  · simp only [List.forall_mem_cons,List.not_mem_nil,false_implies,implies_true,and_true]
    omega

theorem units_val (cs : List Char) : (units cs).map Fin.val = cs.flatMap charUnits := by
  rw [units,List.map_map]
  refine (List.map_congr_left fun n hn => ?_).trans (List.map_id _)
  obtain ⟨c,-,hc⟩ := List.mem_flatMap.mp hn
  exact Nat.mod_eq_of_lt (charUnits_lt c n hc)

theorem units_append (cs ds : List Char) : units (cs ++ ds) = units cs ++ units ds := by
  rw [units,List.flatMap_append,List.map_append,units,units]

theorem units_injective : Function.Injective units := by
  intro cs ds h
  have hval := congrArg (List.map Fin.val) h
  rw [units_val,units_val] at hval
  exact flatMap_charUnits_inj hval

theorem single_char {c : Char} (h : c.toNat < 0x10000) :
    single (.ofNat 65536 c.toNat) = .scalar c := by
  have hc : c.toNat < 0xD800 ∨ 0xDFFF < c.toNat ∧ c.toNat < 0x110000 := c.valid
  have hval : (Fin.ofNat 65536 c.toNat).val = c.toNat := Nat.mod_eq_of_lt h
  refine CodePoint.units_injective ?_
  rw [units_single,hval,CodePoint.units,charUnits,if_pos h]

/-- A character comes back whole, whatever stands behind it. -/
theorem codePoints_cons (c : Char) (text : List CodeUnit) :
    codePoints (units [c] ++ text) = .scalar c :: codePoints text := by
  have hc : c.toNat < 0xD800 ∨ 0xDFFF < c.toNat ∧ c.toNat < 0x110000 := c.valid
  by_cases h : c.toNat < 0x10000
  · have hunits : units [c] = [.ofNat 65536 c.toNat] := by simp [units,charUnits,h]
    have hlow : ¬IsHigh (.ofNat 65536 c.toNat) := by
      have hval : (Fin.ofNat 65536 c.toNat).val = c.toNat := Nat.mod_eq_of_lt h
      rw [IsHigh,hval]
      omega
    rw [hunits]
    cases text with
    | nil =>
      rw [List.append_nil]
      exact congrArg (fun p => [p]) (single_char h)
    | cons u rest =>
      rw [List.singleton_append,codePoints,if_neg fun hpair => hlow hpair.1,single_char h]
  · obtain ⟨high,low,hunits,hhigh,hlow⟩ : ∃ high low, units [c] = [high,low] ∧
        IsHigh high ∧ IsLow low := by
      refine ⟨.ofNat _ (0xD800+(c.toNat-0x10000)/0x400),.ofNat _ (0xDC00+(c.toNat-0x10000)%0x400),
        by simp [units,charUnits,h],?_,?_⟩
      · simp only [IsHigh,Fin.ofNat_eq_cast,Fin.val_natCast]
        omega
      · simp only [IsLow,Fin.ofNat_eq_cast,Fin.val_natCast]
        omega
    have hchar : pairChar high low = c := by
      have hval := units_val [c]
      rw [hunits,List.flatMap_singleton] at hval
      exact (charUnits_append_inj (congrArg (· ++ []) ((units_pair hhigh hlow).trans hval))).1
    rw [hunits,List.cons_append,List.singleton_append,codePoints,if_pos ⟨hhigh,hlow⟩,hchar]

theorem codePoints_units (cs : List Char) : codePoints (units cs) = cs.map .scalar := by
  induction cs with
  | nil => rfl
  | cons c cs ih =>
    rw [← List.singleton_append,units_append,codePoints_cons,ih,List.singleton_append,
      List.map_cons]

theorem wellFormed_units (cs : List Char) : wellFormed (units cs) = cs := by
  rw [wellFormed,codePoints_units,List.map_map]
  exact List.map_id _

/-- Where no character has been replaced, the characters say what the code units are. -/
theorem eq_units_of_wellFormed (h : wellFormed text = cs) (hcs : Char.ofNat 0xFFFD ∉ cs) :
    text = units cs := by
  have hpoints : codePoints text = cs.map .scalar := by
    rw [← h,wellFormed,List.map_map]
    refine ((List.map_congr_left fun p hp => ?_).trans (List.map_id _)).symm
    cases p with
    | scalar c => rfl
    | lone u hu =>
      have hmem := List.mem_map_of_mem (f := CodePoint.char) hp
      rw [← wellFormed,h] at hmem
      exact absurd hmem hcs
  refine codePoints_injective ?_
  rw [hpoints,codePoints_units]

theorem units_ascii (h : ∀ c ∈ cs, c.toNat < 0x10000) :
    units cs = cs.map fun c => .ofNat 65536 c.toNat := by
  induction cs with
  | nil => rfl
  | cons c cs ih =>
    obtain ⟨hc,hcs⟩ := List.forall_mem_cons.mp h
    rw [← List.singleton_append,units_append,ih hcs,List.map_append]
    simp [units,charUnits,hc]

end Characters

end Utf16
