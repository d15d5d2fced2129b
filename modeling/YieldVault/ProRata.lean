import Mathlib.Tactic

/-! A pool of `A` assets owned through `S` shares. Prices are compared cross
multiplied, so nothing is divided; rounding enters only as the inequality that
a rounded-down portion satisfies. -/
namespace ProRata

section Price

variable {R : Type*} [CommRing R] [LinearOrder R] [IsStrictOrderedRing R]

def PriceLe (A S A' S' : R) : Prop := A*S' ≤ A'*S

omit [IsStrictOrderedRing R] in
theorem PriceLe.refl (A S : R) : PriceLe A S A S := le_refl _

theorem PriceLe.trans {A S A' S' A'' S'' : R} (hS : 0 ≤ S) (hS' : 0 < S') (hS'' : 0 ≤ S'')
    (h : PriceLe A S A' S') (h' : PriceLe A' S' A'' S'') : PriceLe A S A'' S'' := by
  have h₁ : A*S'*S'' ≤ A'*S*S'' := mul_le_mul_of_nonneg_right h hS''
  have h₂ : A'*S''*S ≤ A''*S'*S := mul_le_mul_of_nonneg_right h' hS
  have h₃ : A*S''*S' ≤ A''*S*S' := by
    calc A*S''*S' = A*S'*S'' := by ring
      _ ≤ A'*S*S'' := h₁
      _ = A'*S''*S := by ring
      _ ≤ A''*S'*S := h₂
      _ = A''*S*S' := by ring
  exact le_of_mul_le_mul_right h₃ hS'

theorem mint_price {A S a m : R} (h : m*A ≤ a*S) : PriceLe A S (A+a) (S+m) := by
  unfold PriceLe
  linarith

theorem burn_price {A S s r : R} (h : r*S ≤ s*A) : PriceLe A S (A-r) (S-s) := by
  unfold PriceLe
  linarith

theorem gain_price {A S n : R} (hn : 0 ≤ n) (hS : 0 ≤ S) : PriceLe A S (A+n) S := by
  unfold PriceLe
  nlinarith

/-- A burn within the supply keeps at least the rest of the shares' worth in the pool. -/
theorem burn_assets_nonneg {A S s r : R} (hS : 0 < S) (hA : 0 ≤ A) (hs : s ≤ S)
    (h : r*S ≤ s*A) : 0 ≤ A-r := by
  have hm : s*A ≤ S*A := mul_le_mul_of_nonneg_right hs hA
  have hr : r*S ≤ A*S := by linarith
  exact sub_nonneg.mpr (le_of_mul_le_mul_right hr hS)

theorem burn_assets_pos {A S s r : R} (hS : 0 < S) (hA : 0 < A) (hs : s < S)
    (h : r*S ≤ s*A) : 0 < A-r := by
  have hm : s*A < S*A := mul_lt_mul_of_pos_right hs hA
  have hr : r*S < A*S := by linarith
  exact sub_pos.mpr (lt_of_mul_lt_mul_right hr hS.le)

theorem PriceLe.buys {A S A' S' a m : R} (h : PriceLe A S A' S') (hS : 0 ≤ S) (hS' : 0 < S')
    (hm : 0 ≤ m) (hbought : m*A' ≤ a*S') : m*A ≤ a*S := by
  refine le_of_mul_le_mul_right ?_ hS'
  calc m*A*S' = m*(A*S') := by ring
    _ ≤ m*(A'*S) := mul_le_mul_of_nonneg_left h hm
    _ = m*A'*S := by ring
    _ ≤ a*S'*S := mul_le_mul_of_nonneg_right hbought hS
    _ = a*S*S' := by ring

/-- Minting in two steps mints no more than the two amounts entitle to at first. -/
theorem mint_split {A S a m b n : R} (hS : 0 ≤ S) (hpos : 0 < S+m) (hn : 0 ≤ n)
    (h : m*A ≤ a*S) (h' : n*(A+a) ≤ b*(S+m)) : (m+n)*A ≤ (a+b)*S := by
  have hlater : n*A ≤ b*S := (mint_price h).buys hS hpos hn h'
  linarith

/-- Burning in two steps pays no more than all the shares entitle to at first: what the first
step rounds off stays behind for the shares that are left, of which the second step burns a
part. -/
theorem burn_split {A S s r b q : R} (hS : 0 ≤ S) (hleft : 0 < S-s) (hb : b ≤ S-s)
    (h : r*S ≤ s*A) (h' : q*(S-s) ≤ b*(A-r)) : (r+q)*S ≤ (s+b)*A := by
  refine le_of_mul_le_mul_right ?_ hleft
  have hlater : q*(S-s)*S ≤ b*(A-r)*S := mul_le_mul_of_nonneg_right h' hS
  have hkept : 0 ≤ (s*A-r*S)*(S-s-b) := mul_nonneg (sub_nonneg.mpr h) (sub_nonneg.mpr hb)
  calc (r+q)*S*(S-s) = r*S*(S-s)+q*(S-s)*S := by ring
    _ ≤ r*S*(S-s)+b*(A-r)*S := by linarith
    _ ≤ r*S*(S-s)+b*(A-r)*S+(s*A-r*S)*(S-s-b) := le_add_of_nonneg_right hkept
    _ = (s+b)*A*(S-s) := by ring

end Price

section Floor

/-- Truncating division of words is a rounded-down portion where the operands are not negative. -/
theorem tdiv_portion {a b S : ℤ} (hab : 0 ≤ a*b) (hS : 0 < S) :
    (a*b).tdiv S = a*b / S ∧ 0 ≤ (a*b).tdiv S ∧ (a*b).tdiv S*S ≤ a*b ∧
      a*b < ((a*b).tdiv S+1)*S := by
  have he : (a*b).tdiv S = a*b / S := Int.tdiv_eq_ediv_of_nonneg hab
  refine ⟨he,he ▸ Int.ediv_nonneg hab hS.le,?_,?_⟩
  · rw [he]; exact Int.ediv_mul_le _ hS.ne'
  · rw [he]; exact Int.lt_ediv_add_one_mul_self _ hS

/-- Truncation never rounds further down than to the floor. -/
theorem ediv_le_tdiv {x S : ℤ} (hS : 0 < S) : x / S ≤ x.tdiv S := by
  rw [Int.tdiv_eq_ediv]
  split_ifs
  · omega
  · rw [Int.sign_eq_one_of_pos hS]
    omega

/-- A rounded-down ratio within a bound says that the ratio is within it, unless the bound
is met with a remainder. -/
theorem le_mul_iff_of_floor {x S k : ℤ} (hS : 0 < S) (h : x / S ≤ k) :
    x ≤ k*S ↔ (x / S = k → S ∣ x) := by
  have hlow : x / S*S ≤ x := Int.ediv_mul_le x hS.ne'
  constructor
  · intro hle he
    subst he
    exact Dvd.intro_left (x / S) (le_antisymm hlow hle)
  · intro hexact
    rcases h.eq_or_lt with he | hlt
    · rw [← he,Int.ediv_mul_cancel (hexact he)]
    · have hup : x < (x / S+1)*S := Int.lt_ediv_add_one_mul_self x hS
      have hstep : (x / S+1)*S ≤ k*S := mul_le_mul_of_nonneg_right (by omega) hS.le
      exact (hup.trans_le hstep).le

/-- The same shares are worth at least as much at a price that is no lower. -/
theorem floor_mono {b A S A' S' : ℤ} (hb : 0 ≤ b) (hS : 0 < S) (hS' : 0 < S')
    (h : PriceLe A S A' S') : b*A / S ≤ b*A' / S' := by
  have hlow : b*A / S*S ≤ b*A := Int.ediv_mul_le _ hS.ne'
  refine Int.le_ediv_of_mul_le hS' (le_of_mul_le_mul_right ?_ hS)
  calc b*A / S*S'*S = b*A / S*S*S' := by ring
    _ ≤ b*A*S' := mul_le_mul_of_nonneg_right hlow hS'.le
    _ = b*(A*S') := by ring
    _ ≤ b*(A'*S) := mul_le_mul_of_nonneg_left h hb
    _ = b*A'*S := by ring

/-- What comes back when an amount is paid in and its rounded-down shares are redeemed at
once: no more than the amount, and short of it by less than the price of a share and a unit. -/
theorem roundTrip_bounds {A S a m r : ℤ} (hS : 0 < S) (hA : 0 < A) (hm : 0 ≤ m)
    (hlow : m*A ≤ a*S) (hup : a*S < (m+1)*A) (hrlow : r*(S+m) ≤ m*(A+a))
    (hrup : m*(A+a) < (r+1)*(S+m)) : r ≤ a ∧ (a-r-1)*S < A := by
  have hSm : 0 < S+m := by omega
  have hgain : r*(S+m) ≤ a*(S+m) := by linarith
  have hloss : (a-r-1)*(S+m) < A := by linarith
  refine ⟨le_of_mul_le_mul_right hgain hSm,?_⟩
  rcases le_total 0 (a-r-1) with h | h
  · calc (a-r-1)*S ≤ (a-r-1)*(S+m) := mul_le_mul_of_nonneg_left (by omega) h
      _ < A := hloss
  · exact (mul_nonpos_of_nonpos_of_nonneg h hS.le).trans_lt hA

end Floor

section Exit

def floors (bs : List ℤ) (A S : ℤ) : List ℤ := bs.map fun b => b*A / S

/-- What is paid out when the holders leave one after another, each for the rounded-down part
of what the earlier ones have left. -/
def exitPayouts : List ℤ → ℤ → ℤ → List ℤ
  | [], _, _ => []
  | b::bs, A, S => b*A / S :: exitPayouts bs (A-b*A / S) (S-b)

variable {bs : List ℤ} {A S : ℤ}

theorem floors_sum_mul_le (hS : 0 < S) : (floors bs A S).sum*S ≤ bs.sum*A := by
  induction bs with
  | nil => simp [floors]
  | cons b bs ih =>
    have hlow : b*A / S*S ≤ b*A := Int.ediv_mul_le _ hS.ne'
    simp only [floors,List.map_cons,List.sum_cons] at ih ⊢
    linarith

theorem lt_floors_sum_mul (hS : 0 < S) (hne : bs ≠ []) :
    bs.sum*A < ((floors bs A S).sum+bs.length)*S := by
  induction bs with
  | nil => exact absurd rfl hne
  | cons b bs ih =>
    have hup : b*A < (b*A / S+1)*S := Int.lt_ediv_add_one_mul_self _ hS
    cases bs with
    | nil => simpa [floors] using hup
    | cons b' bs =>
      have hrest := ih (List.cons_ne_nil _ _)
      simp only [floors,List.map_cons,List.sum_cons,List.length_cons,Nat.cast_add,
        Nat.cast_one] at hrest ⊢
      linarith

/-- Together the holders of all shares are worth no more than the pool, and less by fewer
units than there are holders. -/
theorem floors_sum_bounds (hS : 0 < S) (hne : bs ≠ []) (hsum : bs.sum = S) :
    (floors bs A S).sum ≤ A ∧ A-(floors bs A S).sum < bs.length := by
  have hlow : (floors bs A S).sum*S ≤ bs.sum*A := floors_sum_mul_le hS
  have hup := lt_floors_sum_mul (A := A) hS hne
  rw [hsum,mul_comm S] at hlow hup
  have h1 : (floors bs A S).sum ≤ A := le_of_mul_le_mul_right hlow hS
  have h2 : A < (floors bs A S).sum+bs.length := lt_of_mul_lt_mul_right hup hS.le
  exact ⟨h1,by omega⟩

/-- The last one to leave takes all that is left. -/
theorem exitPayouts_sum (hpos : ∀ b ∈ bs, 0 < b) (hne : bs ≠ []) :
    (exitPayouts bs A bs.sum).sum = A := by
  induction bs generalizing A with
  | nil => exact absurd rfl hne
  | cons b bs ih =>
    have hb : 0 < b := hpos b List.mem_cons_self
    cases bs with
    | nil =>
      have hall : b*A / b = A := Int.mul_ediv_cancel_left A hb.ne'
      simpa [exitPayouts] using hall
    | cons b' bs =>
      have hrest := ih (A := A-b*A / (b::b'::bs).sum)
        (fun c hc => hpos c (List.mem_cons_of_mem _ hc)) (List.cons_ne_nil _ _)
      have hleft : (b::b'::bs).sum-b = (b'::bs).sum := by simp
      rw [exitPayouts,hleft,List.sum_cons,hrest]
      ring

/-- Nobody loses by leaving later: each payout is at least the worth at an earlier price. -/
theorem floors_le_exitPayouts {A₀ S₀ : ℤ} (hS₀ : 0 < S₀) (hpos : ∀ b ∈ bs, 0 < b)
    (hprice : PriceLe A₀ S₀ A bs.sum) :
    List.Forall₂ (fun b paid => b*A₀ / S₀ ≤ paid) bs (exitPayouts bs A bs.sum) := by
  induction bs generalizing A with
  | nil => exact List.Forall₂.nil
  | cons b bs ih =>
    have hb : 0 < b := hpos b List.mem_cons_self
    have hrest : ∀ c ∈ bs, 0 < c := fun c hc => hpos c (List.mem_cons_of_mem _ hc)
    have hnonneg : 0 ≤ bs.sum := List.sum_nonneg fun c hc => (hrest c hc).le
    have hS : 0 < (b::bs).sum := by
      rw [List.sum_cons]
      omega
    have hleft : (b::bs).sum-b = bs.sum := by simp
    have hburn : PriceLe A (b::bs).sum (A-b*A / (b::bs).sum) ((b::bs).sum-b) :=
      burn_price (Int.ediv_mul_le _ hS.ne')
    rw [hleft] at hburn
    rw [exitPayouts,hleft]
    exact List.Forall₂.cons (floor_mono hb.le hS₀ hS hprice)
      (ih hrest (hprice.trans hS₀.le hS hnonneg hburn))

/-- When the holders of all shares leave in any order, each takes at least the worth before
the first exit, these fall short of the pool by less than a unit for each, and all is taken. -/
theorem exit_fair (hpos : ∀ b ∈ bs, 0 < b) (hne : bs ≠ []) (hsum : bs.sum = S) :
    List.Forall₂ (fun b paid => b*A / S ≤ paid) bs (exitPayouts bs A S) ∧
      (floors bs A S).sum ≤ A ∧ A-(floors bs A S).sum < bs.length ∧
      (exitPayouts bs A S).sum = A := by
  subst hsum
  have hS : 0 < bs.sum := List.sum_pos _ hpos hne
  obtain ⟨hle,hlt⟩ := floors_sum_bounds hS hne rfl
  exact ⟨floors_le_exitPayouts hS hpos (PriceLe.refl _ _),hle,hlt,exitPayouts_sum hpos hne⟩

end Exit

end ProRata
