import Mathlib.Tactic
import Mathlib.Data.List.Sort

/-! A rolling window over stamped samples, pruned now and then, and the nearest-rank
percentile of the samples in it. -/
namespace RollingWindow

section Window

variable {S : Type*} (stamp : S → ℤ) (span : ℤ)

/-- The samples that are still in the window. -/
def kept (now : ℤ) (xs : List S) : List S := xs.filter fun x => decide (now-span < stamp x)

variable {stamp span} {now later : ℤ} {xs ys : List S}

@[simp] theorem kept_nil : kept stamp span now [] = [] := rfl

@[simp] theorem kept_append :
    kept stamp span now (xs ++ ys) = kept stamp span now xs ++ kept stamp span now ys := by
  apply List.filter_append

/-- What an earlier pruning has dropped would not be kept later either. -/
theorem kept_kept (h : now ≤ later) :
    kept stamp span later (kept stamp span now xs) = kept stamp span later xs := by
  unfold kept
  rw [List.filter_filter]
  apply List.filter_congr
  intro x _
  rw [← Bool.decide_and,decide_eq_decide]
  omega

/-- From `now` on the lists have the same samples in the window. -/
def Agree (stamp : S → ℤ) (span now : ℤ) (xs ys : List S) : Prop :=
  ∀ later, now ≤ later → kept stamp span later xs = kept stamp span later ys

theorem Agree.refl (xs : List S) : Agree stamp span now xs xs := fun _ _ => rfl

theorem Agree.mono (h : Agree stamp span now xs ys) (hle : now ≤ later) :
    Agree stamp span later xs ys := fun u hu => h u (hle.trans hu)

theorem Agree.pruned (h : Agree stamp span now xs ys) :
    Agree stamp span now (kept stamp span now xs) ys := by
  intro later hl
  rw [kept_kept hl]
  apply h later hl

theorem Agree.concat (h : Agree stamp span now xs ys) (x : S) :
    Agree stamp span now (xs ++ [x]) (ys ++ [x]) := by
  intro later hl
  rw [kept_append,kept_append,h later hl]

end Window

section Percentile

variable {A : Type*} [LinearOrder A]

/-- The place of the percentile `p/q` among `n` sorted values, the ratio rounded up. -/
def place (p q n : ℕ) : ℕ := (p*n+(q-1))/q-1

/-- The nearest-rank percentile. -/
def nearestRank (p q : ℕ) (xs : List A) : Option A :=
  (xs.insertionSort (· ≤ ·))[place p q xs.length]?

variable {p q : ℕ} {xs : List A} {v b : A}

theorem place_lt {n : ℕ} (hp : 0 < p) (hpq : p ≤ q) (hn : 0 < n) : place p q n < n := by
  have hq : 0 < q := hp.trans_le hpq
  have hle : (p*n+(q-1))/q ≤ n := by
    apply Nat.le_of_lt_succ
    apply (Nat.div_lt_iff_lt_mul hq).mpr
    have hmul : p*n ≤ q*n := Nat.mul_le_mul_right n hpq
    calc p*n+(q-1) < q*n+q := by omega
      _ = (n+1)*q := by ring
  unfold place
  omega

/-- A count is within the place exactly when it is short of the ratio. -/
theorem le_place_iff {n c : ℕ} (hp : 0 < p) (hpq : p ≤ q) (hn : 0 < n) :
    c ≤ place p q n ↔ c*q < p*n := by
  have hq : 0 < q := hp.trans_le hpq
  have hpn : 0 < p*n := Nat.mul_pos hp hn
  have hone : 1 ≤ (p*n+(q-1))/q := by
    apply (Nat.le_div_iff_mul_le hq).mpr
    omega
  have hshift : c ≤ place p q n ↔ c+1 ≤ (p*n+(q-1))/q := by
    unfold place
    omega
  rw [hshift,Nat.le_div_iff_mul_le hq]
  have hexp : (c+1)*q = c*q+q := by ring
  omega

/-- A sorted list exceeds a bound from the place on at which the values within it end. -/
theorem lt_getElem_iff {i : ℕ} (hs : xs.Pairwise (· ≤ ·)) (hv : xs[i]? = some v) :
    b < v ↔ xs.countP (fun x => decide (x ≤ b)) ≤ i := by
  induction xs generalizing i with
  | nil => simp at hv
  | cons x xs ih =>
    obtain ⟨hx,hs⟩ := List.pairwise_cons.mp hs
    have habove : b < x → xs.countP (fun y => decide (y ≤ b)) = 0 := by
      intro hlt
      apply List.countP_eq_zero.mpr
      intro y hy
      simpa using hlt.trans_le (hx y hy)
    cases i with
    | zero =>
      obtain rfl : x = v := by simpa using hv
      rw [List.countP_cons]
      by_cases h : b < x
      · simp [h,habove h]
      · simp [h,not_lt.mp h]
    | succ i =>
      have hv' : xs[i]? = some v := by simpa using hv
      rw [List.countP_cons]
      by_cases h : b < x
      · have hmem : v ∈ xs := List.mem_of_getElem? hv'
        simp [habove h,h.trans_le (hx v hmem),not_le.mpr h]
      · rw [ih hs hv']
        simp [not_lt.mp h]

/-- The percentile exceeds a bound exactly when more values than the rest of the ratio do. -/
theorem lt_nearestRank_iff (hp : 0 < p) (hpq : p ≤ q) (hv : nearestRank p q xs = some v) :
    b < v ↔ (q-p)*xs.length < q*xs.countP fun x => decide (b < x) := by
  have hlen : (xs.insertionSort (· ≤ ·)).length = xs.length := List.length_insertionSort _ xs
  have hne : 0 < xs.length := by
    rw [← hlen]
    obtain ⟨hlt,-⟩ := List.getElem?_eq_some_iff.mp hv
    exact Nat.zero_lt_of_lt hlt
  have hperm := List.perm_insertionSort (· ≤ ·) xs
  rw [lt_getElem_iff (List.pairwise_insertionSort _ xs) hv,hperm.countP_eq,le_place_iff hp hpq hne]
  -- every value is within the bound or above it
  have hsplit := List.length_eq_countP_add_countP (fun x => decide (x ≤ b)) (l := xs)
  have habove : xs.countP (fun x => decide ¬ decide (x ≤ b) = true) =
      xs.countP fun x => decide (b < x) := by
    apply List.countP_congr
    intro x _
    simp
  rw [habove] at hsplit
  set c := xs.countP fun x => decide (x ≤ b)
  set d := xs.countP fun x => decide (b < x)
  obtain ⟨r,rfl⟩ := Nat.exists_eq_add_of_le hpq
  have hq : (p+r)*d+(p+r)*c = p*xs.length+r*xs.length := by rw [hsplit]; ring
  have hc : c*(p+r) = (p+r)*c := Nat.mul_comm _ _
  rw [Nat.add_sub_cancel_left]
  omega

theorem nearestRank_isSome (hp : 0 < p) (hpq : p ≤ q) (hne : xs ≠ []) :
    ∃ v, nearestRank p q xs = some v := by
  have hlt := place_lt hp hpq (List.length_pos_iff.mpr hne)
  rw [← List.length_insertionSort (· ≤ ·) xs] at hlt
  exact ⟨_,List.getElem?_eq_getElem (by simpa using hlt)⟩

end Percentile

end RollingWindow
