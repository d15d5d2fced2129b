import Mathlib.Tactic

/-! Loops that try something again. A policy says of the error of the attempt with a
given number, counted from one, whether another attempt follows. The outcomes of a loop
are then failures that the policy lets pass and at most one outcome that ends it. -/
namespace Attempts

variable {E A : Type*}

inductive Phase (E A : Type*)
  | trying (attempt : ℕ)
  | waiting (attempt : ℕ)
  | ended (result : Except E A)

def Phase.isEnded : Phase E A → Bool
  | .ended _ => true
  | _ => false

/-- Where the loop stands after the outcome of an attempt. -/
def settle (again : ℕ → E → Bool) (attempt : ℕ) : Except E A → Phase E A
  | .ok a => .ended (.ok a)
  | .error e => if again attempt e then .waiting attempt else .ended (.error e)

/-- An outcome ends the loop, or it is a failure after which the loop waits. -/
theorem settle_cases (again : ℕ → E → Bool) (k : ℕ) (r : Except E A) :
    settle again k r = .ended r ∨ settle again k r = .waiting k ∧ ∃ e, r = .error e := by
  cases r with
  | ok a => exact Or.inl rfl
  | error e =>
    rw [settle]
    split_ifs
    · exact Or.inr ⟨rfl,e,rfl⟩
    · exact Or.inl rfl

/-- The outcomes of a loop, oldest first, and where it stands after them. -/
inductive Trail (again : ℕ → E → Bool) : List (Except E A) → Phase E A → Prop
  | start : Trail again [] (.trying 1)
  | settled {outs : List (Except E A)} {k : ℕ} (h : Trail again outs (.trying k))
      (r : Except E A) : Trail again (outs ++ [r]) (settle again k r)
  | woken {outs : List (Except E A)} {k : ℕ} (h : Trail again outs (.waiting k)) :
      Trail again outs (.trying (k+1))

def Passed (again : ℕ → E → Bool) (es : List E) : Prop :=
  ∀ i e, es[i]? = some e → again (i+1) e = true

variable {again : ℕ → E → Bool}

theorem Passed.nil : Passed again ([] : List E) := by
  intro i e h
  simp at h

theorem Passed.concat {es : List E} {e : E} (h : Passed again es)
    (he : again (es.length+1) e = true) : Passed again (es ++ [e]) := by
  intro i f hf
  by_cases hi : i < es.length
  · rw [List.getElem?_append_left hi] at hf
    exact h i f hf
  · rw [List.getElem?_append_right (Nat.le_of_not_lt hi)] at hf
    obtain ⟨h0,rfl⟩ := List.getElem?_eq_some_iff.mp hf
    have hlen : i = es.length := by
      simp at h0
      omega
    subst hlen
    simpa using he

def Stands (again : ℕ → E → Bool) (outs : List (Except E A)) : Phase E A → Prop
  | .trying k => ∃ es : List E, outs = es.map .error ∧ k = es.length+1 ∧ Passed again es
  | .waiting k => ∃ es : List E, outs = es.map .error ∧ k = es.length ∧ Passed again es
  | .ended r => ∃ es : List E, outs = es.map .error ++ [r] ∧ Passed again es ∧
      ∀ e, r = .error e → again (es.length+1) e = false

theorem stands_settle {es : List E} (hes : Passed again es) (r : Except E A) :
    Stands again (es.map .error ++ [r]) (settle again (es.length+1) r) := by
  cases r with
  | ok a => exact ⟨es,rfl,hes,fun e he => by cases he⟩
  | error e =>
    rw [settle]
    split_ifs with h
    · exact ⟨es ++ [e],by simp,by simp,hes.concat h⟩
    · refine ⟨es,rfl,hes,fun f hf => ?_⟩
      cases hf
      simpa using h

theorem Trail.stands {outs : List (Except E A)} {phase : Phase E A}
    (h : Trail again outs phase) : Stands again outs phase := by
  induction h with
  | start => exact ⟨[],rfl,rfl,Passed.nil⟩
  | settled _ r ih =>
    obtain ⟨es,rfl,rfl,hes⟩ := ih
    exact stands_settle hes r
  | woken _ ih =>
    obtain ⟨es,rfl,rfl,hes⟩ := ih
    exact ⟨es,rfl,rfl,hes⟩

section Outcomes

theorem map_error_inj {es fs : List E}
    (h : es.map (.error : E → Except E A) = fs.map .error) : es = fs :=
  List.map_injective_iff.mpr (fun _ _ he => Except.error.inj he) h

theorem map_error_ne_concat_ok {es fs : List E} {a : A} :
    es.map (.error : E → Except E A) ≠ fs.map .error ++ [.ok a] := by
  intro h
  have hmem : (.ok a : Except E A) ∈ es.map .error := h ▸ List.mem_concat_self
  obtain ⟨e,-,he⟩ := List.mem_map.mp hmem
  cases he

theorem Passed.last {es : List E} {e : E} (h : Passed again (es ++ [e])) :
    again (es.length+1) e = true := h es.length e List.getElem?_concat_length

variable {outs : List (Except E A)} {phase : Phase E A}

/-- A loop goes on exactly while every outcome is a failure that is passed. -/
theorem Trail.open_iff (h : Trail again outs phase) :
    phase.isEnded = false ↔ ∃ es : List E, outs = es.map .error ∧ Passed again es := by
  have hs := h.stands
  cases phase with
  | trying k =>
    obtain ⟨es,houts,-,hes⟩ := hs
    exact iff_of_true rfl ⟨es,houts,hes⟩
  | waiting k =>
    obtain ⟨es,houts,-,hes⟩ := hs
    exact iff_of_true rfl ⟨es,houts,hes⟩
  | ended r =>
    obtain ⟨es,houts,-,hlast⟩ := hs
    refine iff_of_false (by rintro ⟨⟩) ?_
    rintro ⟨fs,hfs,hpassed⟩
    cases r with
    | ok a => exact map_error_ne_concat_ok (hfs.symm.trans houts)
    | error e =>
      have hall : fs = es ++ [e] := map_error_inj (A := A) (by simp [← hfs,houts])
      rw [hall] at hpassed
      have hno := hlast e rfl
      rw [hpassed.last] at hno
      cases hno

/-- A loop that has not ended has no outcome that would end it. -/
theorem Trail.ended_of_concat (h : Trail again outs phase) {es : List E} {r : Except E A}
    (houts : outs = es.map .error ++ [r])
    (hr : ∀ e, r = .error e → again (es.length+1) e = false) : phase = .ended r := by
  have hopen : phase.isEnded ≠ false := by
    intro hopen
    obtain ⟨fs,hfs,hpassed⟩ := h.open_iff.mp hopen
    cases r with
    | ok a => exact map_error_ne_concat_ok (hfs.symm.trans houts)
    | error e =>
      have hall : fs = es ++ [e] := map_error_inj (A := A) (by simp [← hfs,houts])
      rw [hall] at hpassed
      have hno := hr e rfl
      rw [hpassed.last] at hno
      cases hno
  have hs := h.stands
  cases phase with
  | ended q =>
    obtain ⟨fs,hfs,-⟩ := hs
    have hlast := congrArg List.getLast? (houts.symm.trans hfs)
    rw [List.getLast?_concat,List.getLast?_concat] at hlast
    rw [Option.some.inj hlast]
  | _ => exact absurd rfl hopen

theorem Trail.returned_iff (h : Trail again outs phase) {a : A} :
    phase = .ended (.ok a) ↔ ∃ es : List E, outs = es.map .error ++ [.ok a] := by
  constructor
  · rintro rfl
    obtain ⟨es,houts,-,-⟩ := h.stands
    exact ⟨es,houts⟩
  · rintro ⟨es,houts⟩
    exact h.ended_of_concat houts (by rintro e ⟨⟩)

theorem Trail.thrown_iff (h : Trail again outs phase) {e : E} :
    phase = .ended (.error e) ↔ ∃ es : List E, outs = (es ++ [e]).map .error ∧
      Passed again es ∧ again (es.length+1) e = false := by
  constructor
  · rintro rfl
    obtain ⟨es,houts,hes,hlast⟩ := h.stands
    exact ⟨es,by simp [houts],hes,hlast e rfl⟩
  · rintro ⟨es,houts,-,hlast⟩
    have houts' : outs = es.map .error ++ [.error e] := by simp [houts]
    refine h.ended_of_concat houts' ?_
    rintro f ⟨⟩
    exact hlast

end Outcomes

section Bounded

variable {n : ℕ} {outs : List (Except E A)} {phase : Phase E A}

theorem Passed.length_lt (hb : ∀ k e, again k e = true → k < n) {es : List E}
    (h : Passed again es) (hne : es ≠ []) : es.length < n := by
  have hlast := h (es.length-1) (es.getLast hne) 
    (by rw [← List.getLast?_eq_getElem?,List.getLast?_eq_some_getLast hne])
  have hpos := List.length_pos_iff.mpr hne
  have := hb _ _ hlast
  omega

theorem Trail.length_le (hb : ∀ k e, again k e = true → k < n) (hn : 1 ≤ n)
    (h : Trail again outs phase) : outs.length ≤ n := by
  have hlt : ∀ es : List E, Passed again es → es.length+1 ≤ n := by
    intro es hes
    by_cases hne : es = []
    · simpa [hne] using hn
    · exact hes.length_lt hb hne
  have hs := h.stands
  cases phase with
  | trying k =>
    obtain ⟨es,rfl,-,hes⟩ := hs
    simpa using (Nat.le_succ _).trans (hlt es hes)
  | waiting k =>
    obtain ⟨es,rfl,-,hes⟩ := hs
    simpa using (Nat.le_succ _).trans (hlt es hes)
  | ended r =>
    obtain ⟨es,rfl,hes,-⟩ := hs
    simpa using hlt es hes

theorem passed_iff (hb : ∀ k e, again k e = true ↔ k < n) (hn : 1 ≤ n) {es : List E} :
    Passed again es ↔ es.length < n := by
  constructor
  · intro h
    by_cases hne : es = []
    · rw [hne]
      exact hn
    · exact h.length_lt (fun k e => (hb k e).mp) hne
  · intro hlt i e hi
    obtain ⟨hlen,-⟩ := List.getElem?_eq_some_iff.mp hi
    rw [hb]
    omega

theorem Trail.exhausted (hb : ∀ k e, again k e = true ↔ k < n) (hn : 1 ≤ n)
    (h : Trail again outs phase) {e : E} : phase = .ended (.error e) ↔
      outs.length = n ∧ ∃ es : List E, outs = es.map .error ∧ es.getLast? = some e := by
  rw [h.thrown_iff]
  constructor
  · rintro ⟨es,rfl,hes,hlast⟩
    have hlt := (passed_iff hb hn).mp hes
    have hge : ¬ es.length+1 < n := fun hlt => by simp [(hb _ e).mpr hlt] at hlast
    refine ⟨?_,es ++ [e],rfl,List.getLast?_concat⟩
    simp only [List.length_map,List.length_append,List.length_singleton]
    omega
  · rintro ⟨hlen,es,rfl,hlast⟩
    obtain ⟨fs,rfl⟩ := List.getLast?_eq_some_iff.mp hlast
    simp only [List.length_map,List.length_append,List.length_singleton] at hlen
    refine ⟨fs,rfl,(passed_iff hb hn).mpr (by omega),?_⟩
    have hnot : ¬ again (fs.length+1) e = true := fun hyes => by
      have hlt := (hb _ e).mp hyes
      omega
    simpa using hnot

end Bounded

end Attempts
