import YieldVault.ShareLedger

/-! While nothing is placed with a strategy and no yield is counted that has not been paid in,
a share is worth at least one unit: there are never more shares than assets, and all assets
are idle. -/
namespace ProRata

/-- Burning a rounded-down portion leaves no more shares than assets. -/
theorem burn_floor {A S s r : ℤ} (hS : 0 < S) (hSA : S ≤ A) (hs : s ≤ S) (h : r*S ≤ s*A) :
    S-s ≤ A-r := by
  refine le_of_mul_le_mul_right ?_ hS
  calc (S-s)*S ≤ (S-s)*A := mul_le_mul_of_nonneg_left hSA (sub_nonneg.mpr hs)
    _ = S*A-s*A := by ring
    _ ≤ S*A-r*S := by linarith
    _ = (A-r)*S := by ring

theorem portion_le {A S a m : ℤ} (hA : 0 < A) (ha : 0 ≤ a) (hSA : S ≤ A) (h : m*A ≤ a*S) :
    m ≤ a := by
  refine le_of_mul_le_mul_right ?_ hA
  exact h.trans (mul_le_mul_of_nonneg_left hSA ha)

end ProRata

namespace YieldVault

open FixedWidth Contract

/-- Shares are minted for at most the amount while the price is at least one. -/
theorem assetsToShares_le {assets totalShares totalAssets m : ℤ} (ha : 0 < assets)
    (hS : 0 ≤ totalShares) (hSA : totalShares ≤ totalAssets)
    (h : assetsToShares assets totalShares totalAssets = .ok m) : m ≤ assets := by
  rw [assetsToShares_eq_ok] at h
  split_ifs at h with h0
  · exact h.ge
  · have hA : 0 < totalAssets :=
      lt_of_le_of_ne (hS.trans hSA) fun he => h0 (Or.inl he.symm)
    have hp := ProRata.tdiv_portion (mul_nonneg ha.le hS) hA
    rw [h.2.2] at hp
    exact ProRata.portion_le hA ha.le hSA hp.2.2.1

namespace Books

/-- The price of a share is at least one, and all assets are idle. -/
structure Floored (b : Books) : Prop where
  sound : Sound b
  floor : b.supply ≤ b.assets
  idle : b.idle = b.assets

def Domestic : Entry → Prop
  | .mint _ _ _ _ | .burn _ _ _ | .yield _ _ | .setPaused _ => True
  | _ => False

theorem Floored.post {b : Books} {e : Entry} (hb : Floored b) (he : Valid b e) (hc : Covered b e)
    (hd : Domestic e) : Floored (post e b) := by
  have hsound := hb.sound.post he hc
  have hfloor := hb.floor
  have hidle := hb.idle
  have hsupply := hb.sound.supply
  cases e with
  | mint user amount shares stored =>
    obtain ⟨-,hpos,-,hshares,-⟩ := he.admits
    have hle := assetsToShares_le hpos hsupply hfloor hshares
    refine ⟨hsound,?_,?_⟩
    · change b.supply+shares ≤ b.assets+amount
      omega
    · change b.idle+amount = b.assets+amount
      omega
  | burn user shares paid =>
    obtain ⟨hpos,hpaid⟩ := he.admits
    have hshares : shares ≤ b.supply := le_trans hc (hb.sound.balance_le user)
    have hpositive : 0 < b.supply := by omega
    have hportion := sharesToAssets_portion hpos.le hpositive hb.sound.assets hpaid
    refine ⟨hsound,?_,?_⟩
    · exact ProRata.burn_floor hpositive hfloor hshares hportion.2.2
    · change b.idle-paid = b.assets-paid
      omega
  | yield net fee =>
    have hnet : 0 ≤ net := he.admits.1
    refine ⟨hsound,?_,?_⟩
    · change b.supply ≤ b.assets+net
      omega
    · change b.idle+net = b.assets+net
      omega
  | setPaused paused => exact ⟨hsound,hfloor,hidle⟩
  | _ => exact absurd hd id

theorem floored_empty : Floored Books.empty := ⟨sound_empty,le_rfl,rfl⟩

/-- A payout of what shares are worth is covered by the idle assets. -/
theorem Floored.paid_le {b : Books} (hb : Floored b) {shares paid : ℤ} (hpos : 0 < shares)
    (hshares : shares ≤ b.supply) (hpaid : sharesToAssets shares b.supply b.assets = .ok paid) :
    paid ≤ b.idle := by
  have hpositive : 0 < b.supply := by omega
  have hportion := sharesToAssets_portion hpos.le hpositive hb.sound.assets hpaid
  have hkept := ProRata.burn_assets_nonneg hpositive hb.sound.assets hshares hportion.2.2
  rw [hb.idle]
  omega

end Books

/-- The five operations on shares and yields. -/
def Call.isOperation : Call → Bool
  | .deposit _ _ | .batchDeposit _ _ | .withdraw _ _ | .accrueYield _ | .reportBenjiYield _ _ => true
  | _ => false

/-- What may happen besides: the initialization, the pause, and all that only changes settings,
roles, votes, checkpoints and shipments, but for the threshold of large withdrawals. A batch
size is a `u32`. -/
def Call.isOffice : Call → Bool
  | .initializeVault _ _ | .pause _ | .unpause => true
  | .setting (.largeWithdrawalThreshold _) => false
  | .setting (.maxBatchSize size) => decide (size < 2^32)
  | call => call.isQuiet

variable {σ : Type} {host : Host σ} {chain : σ} {l t : Ledger σ}

def Ordinary (_ : Ledger σ) : Action host → Prop
  | .invoke inv => inv.call.isOperation = true ∨ inv.call.isOffice = true
  | .outside _ => True

theorem Ordinary.covered {a : Action host} (h : Ordinary l a) : CoveredExecution l a := by
  cases a with
  | outside c => trivial
  | invoke inv =>
    obtain ⟨timestamp,sequence,auth,unsigned,call⟩ := inv
    cases call with
    | executeWithdrawal user => rcases h with h | h <;> exact absurd h Bool.false_ne_true
    | _ => trivial

theorem burnPage_domestic {b : Books} (hb : b.Floored) {user : Address} {shares paid : ℤ}
    (hshares : shares ≤ b.balance user) (hvalid : Books.ValidPage (burnPage b.idle user shares paid) b) :
    ∀ e ∈ burnPage b.idle user shares paid, Books.Domestic e := by
  have hsupply := hshares.trans (hb.sound.balance_le user)
  unfold burnPage shortfall at hvalid ⊢
  split_ifs at hvalid ⊢ with hshort
  · obtain ⟨-,hburn,-⟩ := hvalid
    have hle := hb.paid_le hburn.admits.1 hsupply hburn.admits.2
    omega
  · intro e he
    rw [List.mem_singleton.mp he]
    trivial

theorem page_domestic {call : Call} {es : List Entry} (hb : (books l).Floored)
    (hcall : call.isOperation = true ∨ call.isOffice = true) (h : Page l.storage call es)
    (hvalid : Books.ValidPage es (books l)) : ∀ e ∈ es, Books.Domestic e := by
  have hone : ∀ {e : Entry}, Books.Domestic e → ∀ e' ∈ [e], Books.Domestic e' := by
    intro e he e' he'
    rw [List.mem_singleton.mp he']
    exact he
  cases call with
  | deposit user amount =>
    obtain ⟨-,shares,rfl⟩ := h
    exact hone trivial
  | batchDeposit relayer entries =>
    intro e he
    have hmint := h.2 e he
    cases e with
    | mint user amount shares stored => trivial
    | _ => exact absurd hmint id
  | withdraw user shares =>
    obtain ⟨-,hbal,rfl | ⟨paid,rfl⟩⟩ := h
    · simp
    · exact burnPage_domestic hb hbal hvalid
  | accrueYield amount =>
    obtain ⟨_,rfl⟩ := h
    exact hone trivial
  | reportBenjiYield strategy amount =>
    obtain ⟨_,rfl⟩ := h
    exact hone trivial
  | pause reason => exact h ▸ hone trivial
  | unpause => exact h ▸ hone trivial
  | executeWithdrawal _ | accrueKoreanDebtYield | invest _ | divest _ | rebalance _ _ _ _ _
  | claimFees | confirmEmergencyAction _ _ =>
    rcases hcall with hcall | hcall <;> exact absurd hcall Bool.false_ne_true
  | _ =>
    have h0 : es = [] := h
    simp [h0]

theorem step_floored (hf : Founded l) (hb : (books l).Floored) {a : Action host}
    (hg : Ordinary l a) : (books (step host a l)).Floored := by
  refine step_books Books.floored_empty (fun l inv v es _ hg hP hv hpage hbook => ?_) hf hb hg
  have hcovered := page_covered (Ordinary.covered hg) hv hpage
  have hdomestic : Runs.Along Books.post (fun _ => Books.Domestic) (books l) es :=
    Runs.along_of_forall_mem (fun e he _ => page_domestic hP hg hpage hbook.valid e he) (books l)
  exact ((hbook.valid.and hcovered).and hdomestic).invariant
    (fun _ _ hb he => hb.post he.1.1 he.1.2 he.2) hP

end YieldVault
