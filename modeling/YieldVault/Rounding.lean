import Mathlib.Tactic

/-! Values that are computed with rounded operations, beside the exact ones. Where at most `n`
roundings of relative error `ε` follow one another, the computed value differs from the exact
one by at most `(1+ε)^n-1` times a size that bounds all terms. -/
namespace Rounding

variable {K : Type*} [Field K] [LinearOrder K]

/-- One rounding. -/
def Rounds (ε computed exact : K) : Prop := |computed-exact| ≤ ε*|exact|

structure Near (ε : K) (n : ℕ) (size computed exact : K) : Prop where
  error : |computed-exact| ≤ ((1+ε)^n-1)*size
  bound : |exact| ≤ size

variable {ε x y z x' y' size size' : K} {n m : ℕ}

theorem Near.neg (h : Near ε n size x y) : Near ε n size (-x) (-y) where
  error := by
    rw [neg_sub_neg,abs_sub_comm]
    exact h.error
  bound := (abs_neg y).trans_le h.bound

variable [IsStrictOrderedRing K]

theorem rounds_self (hε : 0 ≤ ε) : Rounds ε x x := by
  rw [Rounds,sub_self,abs_zero]
  exact mul_nonneg hε (abs_nonneg x)

theorem growth_nonneg (hε : 0 ≤ ε) (n : ℕ) : 0 ≤ (1+ε)^n-1 :=
  sub_nonneg.mpr (one_le_pow₀ (le_add_of_nonneg_right hε))

theorem Near.size_nonneg (h : Near ε n size x y) : 0 ≤ size := (abs_nonneg y).trans h.bound

theorem near_self (hε : 0 ≤ ε) (hsize : |x| ≤ size) : Near ε n size x x where
  error := by
    rw [sub_self,abs_zero]
    exact mul_nonneg (growth_nonneg hε n) ((abs_nonneg x).trans hsize)
  bound := hsize

theorem Near.mono (h : Near ε n size x y) (hε : 0 ≤ ε) (hn : n ≤ m) : Near ε m size x y where
  error := by
    have hpow : (1+ε)^n ≤ (1+ε)^m := pow_le_pow_right₀ (le_add_of_nonneg_right hε) hn
    exact h.error.trans (mul_le_mul_of_nonneg_right (by linarith) h.size_nonneg)
  bound := h.bound

theorem Near.rounds (h : Near ε n size x y) (hε : 0 ≤ ε) (hz : Rounds ε z x) :
    Near ε (n+1) size z y where
  error := by
    have hx : |x| ≤ size+((1+ε)^n-1)*size := by
      calc |x| = |y+(x-y)| := by ring_nf
        _ ≤ |y|+|x-y| := abs_add_le _ _
        _ ≤ size+((1+ε)^n-1)*size := add_le_add h.bound h.error
    calc |z-y| = |(z-x)+(x-y)| := by ring_nf
      _ ≤ |z-x|+|x-y| := abs_add_le _ _
      _ ≤ ε*(size+((1+ε)^n-1)*size)+((1+ε)^n-1)*size :=
        add_le_add (hz.trans (mul_le_mul_of_nonneg_left hx hε)) h.error
      _ = ((1+ε)^(n+1)-1)*size := by ring
  bound := h.bound

theorem Near.add (h : Near ε n size x y) (h' : Near ε n size' x' y') :
    Near ε n (size+size') (x+x') (y+y') where
  error := by
    calc |x+x'-(y+y')| = |(x-y)+(x'-y')| := by ring_nf
      _ ≤ |x-y|+|x'-y'| := abs_add_le _ _
      _ ≤ ((1+ε)^n-1)*size+((1+ε)^n-1)*size' := add_le_add h.error h'.error
      _ = ((1+ε)^n-1)*(size+size') := by ring
  bound := (abs_add_le _ _).trans (add_le_add h.bound h'.bound)

theorem Near.sub (h : Near ε n size x y) (h' : Near ε n size' x' y') :
    Near ε n (size+size') (x-x') (y-y') := by
  rw [sub_eq_add_neg,sub_eq_add_neg]
  exact h.add h'.neg

theorem Near.mul_right (h : Near ε n size x y) {c : K} (hc : 0 ≤ c) :
    Near ε n (size*c) (x*c) (y*c) where
  error := by
    rw [← sub_mul,abs_mul,abs_of_nonneg hc,← mul_assoc]
    exact mul_le_mul_of_nonneg_right h.error hc
  bound := by
    rw [abs_mul,abs_of_nonneg hc]
    exact mul_le_mul_of_nonneg_right h.bound hc

theorem Near.max_zero (h : Near ε n size x y) : Near ε n size (max 0 x) (max 0 y) where
  error := by
    have hmax := abs_max_sub_max_le_max 0 x 0 y
    rw [sub_self,abs_zero,max_eq_right (abs_nonneg (x-y))] at hmax
    exact hmax.trans h.error
  bound := by
    rw [abs_of_nonneg (le_max_left _ _)]
    exact max_le h.size_nonneg ((le_abs_self y).trans h.bound)

end Rounding
