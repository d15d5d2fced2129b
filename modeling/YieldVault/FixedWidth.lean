import Mathlib.Tactic

/-! Checked arithmetic on two's-complement and unsigned machine words. A value
is an ordinary integer; an operation returns `none` exactly where the machine
operation reports overflow or a zero divisor. -/
namespace FixedWidth

/-- The integers a signed word of `w` bits can hold. -/
def Fits (w : ℕ) (x : ℤ) : Prop := -2^(w-1) ≤ x ∧ x < 2^(w-1)

instance (w : ℕ) (x : ℤ) : Decidable (Fits w x) := inferInstanceAs (Decidable (_ ∧ _))

def maxSigned (w : ℕ) : ℤ := 2^(w-1) - 1

def narrow (w : ℕ) (x : ℤ) : Option ℤ := if Fits w x then some x else none

def checkedAdd (w : ℕ) (a b : ℤ) : Option ℤ := narrow w (a + b)
def checkedSub (w : ℕ) (a b : ℤ) : Option ℤ := narrow w (a - b)
def checkedMul (w : ℕ) (a b : ℤ) : Option ℤ := narrow w (a * b)

/-- Division truncates toward zero; the one quotient out of range is `min / -1`. -/
def checkedDiv (w : ℕ) (a b : ℤ) : Option ℤ := if b = 0 then none else narrow w (a.tdiv b)

def checkedAddUnsigned (w a b : ℕ) : Option ℕ := if a + b < 2^w then some (a + b) else none

@[simp] theorem narrow_eq_some {w : ℕ} {x y : ℤ} : narrow w x = some y ↔ Fits w x ∧ x = y := by
  unfold narrow
  split <;> simp_all

@[simp] theorem checkedAdd_eq_some {w : ℕ} {a b c : ℤ} :
    checkedAdd w a b = some c ↔ Fits w (a + b) ∧ a + b = c := narrow_eq_some

@[simp] theorem checkedSub_eq_some {w : ℕ} {a b c : ℤ} :
    checkedSub w a b = some c ↔ Fits w (a - b) ∧ a - b = c := narrow_eq_some

@[simp] theorem checkedMul_eq_some {w : ℕ} {a b c : ℤ} :
    checkedMul w a b = some c ↔ Fits w (a * b) ∧ a * b = c := narrow_eq_some

@[simp] theorem checkedDiv_eq_some {w : ℕ} {a b c : ℤ} :
    checkedDiv w a b = some c ↔ b ≠ 0 ∧ Fits w (a.tdiv b) ∧ a.tdiv b = c := by
  unfold checkedDiv
  split <;> simp_all

@[simp] theorem checkedAddUnsigned_eq_some {w a b c : ℕ} :
    checkedAddUnsigned w a b = some c ↔ a + b < 2^w ∧ a + b = c := by
  unfold checkedAddUnsigned
  split <;> simp_all

@[simp] theorem narrow_isSome {w : ℕ} {x : ℤ} : (narrow w x).isSome = true ↔ Fits w x := by
  simp [Option.isSome_iff_exists]

@[simp] theorem checkedAdd_isSome {w : ℕ} {a b : ℤ} :
    (checkedAdd w a b).isSome = true ↔ Fits w (a + b) := narrow_isSome

@[simp] theorem checkedSub_isSome {w : ℕ} {a b : ℤ} :
    (checkedSub w a b).isSome = true ↔ Fits w (a - b) := narrow_isSome

@[simp] theorem checkedMul_isSome {w : ℕ} {a b : ℤ} :
    (checkedMul w a b).isSome = true ↔ Fits w (a * b) := narrow_isSome

theorem Fits.between {w : ℕ} {x y z : ℤ} (hx : Fits w x) (hz : Fits w z) (hxy : x ≤ y)
    (hyz : y ≤ z) : Fits w y := ⟨hx.1.trans hxy,hyz.trans_lt hz.2⟩

theorem fits_zero (w : ℕ) : Fits w 0 := ⟨by simp,by positivity⟩

theorem Fits.sub {w : ℕ} {a b : ℤ} (ha : Fits w a) (hb : Fits w b) (ha0 : 0 ≤ a)
    (hb0 : 0 ≤ b) : Fits w (a - b) := by
  have h1 := ha.2
  have h2 := hb.2
  exact ⟨by linarith,by linarith⟩

/-- A quotient by a positive word is no larger in size than its dividend. -/
theorem Fits.tdiv {w : ℕ} {a b : ℤ} (ha : Fits w a) (hb : 0 < b) : Fits w (a.tdiv b) := by
  rcases le_total 0 a with h | h
  · exact (fits_zero w).between ha (Int.tdiv_nonneg h hb.le) (Int.tdiv_le_self b h)
  · have hn : a.tdiv b = -((-a).tdiv b) := by rw [Int.neg_tdiv,neg_neg]
    have h0 := Int.tdiv_nonneg (show 0 ≤ -a by omega) hb.le
    have hs := Int.tdiv_le_self b (show 0 ≤ -a by omega)
    exact ha.between (fits_zero w) (by omega) (by omega)

end FixedWidth
