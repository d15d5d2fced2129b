import YieldVault.StorageParts
import YieldVault.Ranges
import YieldVault.SimpleHost

/-! The cap on what a user may deposit. Its setter asks for an admin under a key that
nothing ever writes, so the cap is out of reach; the deposits on record stay between
zero and the default. -/
namespace YieldVault

open FixedWidth Contract

variable {σ : Type} {host : Host σ} {env : Env σ} {chain : σ} {l t : Ledger σ}

section Cap

def CapUnset (s : Storage) : Prop := s.admin = none ∧ s.perUserCap = none

theorem CapUnset.refuses (h : CapUnset l.storage) (cap : ℤ) (v : Value) :
    ¬ (dispatch env (.setting (.perUserCap cap))).run l = .ok v t := by
  intro hv
  obtain ⟨_,hset,-⟩ := map_eq_ok.mp hv
  simp [applySetting,setPerUserCap,h.1] at hset

theorem CapUnset.dispatched {call : Call} {v : Value} (h : CapUnset l.storage)
    (hv : (dispatch env call).run l = .ok v t) : CapUnset t.storage := by
  by_cases hw : Part.cap ∈ call.writes
  · cases call with
    | setting setting =>
      cases setting with
      | perUserCap cap => exact absurd hv (h.refuses cap v)
      | _ => simp [Call.writes] at hw
    | _ => simp [Call.writes] at hw
  · have hsame : CapUnset t.storage = CapUnset l.storage :=
      read_of_part (fun _ => rfl) (dispatch_part hw hv)
    rw [hsame]
    exact h

theorem run_capUnset (acts : List (Action host)) : CapUnset (runFrom host chain acts).storage :=
  run_storage (fun _ _ _ _ hv h => h.dispatched hv) acts ⟨rfl,rfl⟩

end Cap

section Deposits

def DepositsNonneg (s : Storage) : Prop := ∀ user, 0 ≤ userDeposit s user

theorem DepositsNonneg.update {s s' : Storage} (h : DepositsNonneg s) (user : Address) {v : ℤ}
    (hv : 0 ≤ v) (hs : userDeposit s' = Function.update (userDeposit s) user v) :
    DepositsNonneg s' := by
  intro other
  rw [hs]
  by_cases he : other = user
  · subst he
    rwa [Function.update_self]
  · rw [Function.update_of_ne he]
    exact h other

theorem DepositsNonneg.credited {time : ℕ} {user : Address} {amount shares stored : ℤ}
    {s : Storage} (h : DepositsNonneg s) (ha : 0 < amount) :
    DepositsNonneg (creditedDeposit time user amount shares stored s) := by
  have h0 := h user
  have hv : 0 ≤ userDeposit s user+amount := by omega
  exact h.update user hv (by simp [creditedDeposit])

theorem DepositsNonneg.withdrawn {user : Address} {shares paid r : ℤ} {state : VaultState}
    (h : DepositsNonneg l.storage) (hdo : (doWithdraw env state user shares paid).run l = .ok r t) :
    DepositsNonneg t.storage := by
  obtain ⟨token,m,c,-,hcover,-,-,-,rfl⟩ := doWithdraw_ok.mp hdo
  have hm : DepositsNonneg m.storage := by
    have hsame : DepositsNonneg m.storage = DepositsNonneg l.storage :=
      read_of_part (k := .deposits) (fun _ => rfl) (coverShortfall_movesFunds hcover).part
    rw [hsame]
    exact h
  have hv : 0 ≤ if paid < userDeposit m.storage user then userDeposit m.storage user-paid else 0 := by
    split_ifs <;> omega
  exact hm.update user hv (by simp [debitedWithdrawal])

theorem DepositsNonneg.dispatched {call : Call} {v : Value} (h : DepositsNonneg l.storage)
    (hv : (dispatch env call).run l = .ok v t) : DepositsNonneg t.storage := by
  by_cases hw : Part.deposits ∈ call.writes
  · cases call with
    | deposit user amount =>
      obtain ⟨shares,hdeposit,-⟩ := map_eq_ok.mp hv
      obtain ⟨token,c,-,-,hpos,-,-,-,-,-,-,-,rfl⟩ := deposit_ok.mp hdeposit
      change DepositsNonneg (creditedDeposit env.timestamp user amount shares
        ((getState l.storage).totalShares+shares) l.storage)
      exact h.credited hpos
    | batchDeposit relayer entries =>
      obtain ⟨_,hbatch,-⟩ := map_eq_ok.mp hv
      obtain ⟨token,batch,m,-,-,-,-,-,hloop,-,rfl⟩ := batchDeposit_ok hbatch
      let P : VaultState → Ledger σ → Prop := fun _ m => DepositsNonneg m.storage
      have hP : P batch.state m := by
        refine processEntries_invariant ?_ hloop h
        intro state state' user amount shares m m' hm hentry
        obtain ⟨c,hpos,-,-,-,-,-,-,-,-,rfl⟩ := processSingleBatchEntry_ok.mp hentry
        exact hm.credited hpos
      exact hP
    | withdraw user shares =>
      obtain ⟨_,hwithdraw,-⟩ := map_eq_ok.mp hv
      obtain ⟨hs,paid,-,-,-,-,-,⟨-,hdo⟩ | ⟨-,-,-,rfl⟩⟩ := withdraw_ok.mp hwithdraw
      · exact h.withdrawn hdo
      · exact h
    | executeWithdrawal user =>
      obtain ⟨_,hexec,-⟩ := map_eq_ok.mp hv
      obtain ⟨pending,paid,-,-,-,-,hdo⟩ := executeWithdrawal_ok.mp hexec
      let m : Ledger σ := { l with storage := setPendingWithdrawal user none l.storage }
      have hcleared : DepositsNonneg m.storage := h
      exact hcleared.withdrawn hdo
    | setting setting => cases setting <;> simp [Call.writes] at hw
    | _ => simp [Call.writes] at hw
  · have hsame : DepositsNonneg t.storage = DepositsNonneg l.storage :=
      read_of_part (fun _ => rfl) (dispatch_part hw hv)
    rw [hsame]
    exact h

end Deposits

/-- In no state of any run can anybody put a cap in force, whoever signs: the call fails and
the cap stays at its default. What a user has on record stays between zero and that. -/
theorem perUserCap_never_set (host : Host σ) (chain : σ) (acts : List (Action host)) :
    let l := runFrom host chain acts
    (∀ (inv : Invocation host.vault) (cap : ℤ), inv.call = .setting (.perUserCap cap) →
      (∀ v t, ¬ (dispatch inv.env inv.call).run l = .ok v t) ∧
        perUserCap (invoke inv l).storage = i128Max) ∧
      ∀ user, 0 ≤ userDeposit l.storage user ∧ userDeposit l.storage user ≤ perUserCap l.storage := by
  intro l
  have hunset : CapUnset l.storage := run_capUnset acts
  have hcap : perUserCap l.storage = i128Max := by
    rw [perUserCap,hunset.2]
    rfl
  constructor
  · intro inv cap hcall
    have hfails : ∀ v t, ¬ (dispatch inv.env inv.call).run l = .ok v t := by
      intro v t
      rw [hcall]
      exact hunset.refuses cap v
    refine ⟨hfails,?_⟩
    rcases invoke_cases inv l with ⟨v,hv⟩ | hsame
    · exact absurd hv (hfails v _)
    · rw [hsame,hcap]
  · intro user
    have hnonneg : DepositsNonneg l.storage :=
      run_storage (fun _ _ _ _ hv h => h.dispatched hv) acts fun _ => le_rfl
    have hrange := (run_inRange chain acts).deposits user
    rw [hcap]
    exact ⟨hnonneg user,Int.le_sub_one_of_lt hrange.2⟩

section Runs

open SimpleHost

/-- Right after initialize the admin's call fails. -/
theorem perUserCap_refused :
    ¬ ∀ (acts : List (Action (simpleHost id 0))) (timestamp : ℕ) (cap : ℤ),
      (runFrom (simpleHost id 0) bank acts).storage.proxy.admin = some admin →
        perUserCap (step (simpleHost id 0) (signed admin timestamp (.setting (.perUserCap cap)))
          (runFrom (simpleHost id 0) bank acts)).storage = cap := by
  intro h
  have h1 := h [signed admin 0 (.initializeVault admin token)] 1 1000 (by decide)
  have h2 : perUserCap (step (simpleHost id 0) (signed admin 1 (.setting (.perUserCap 1000)))
      (runFrom (simpleHost id 0) bank [signed admin 0 (.initializeVault admin token)])).storage =
        i128Max := by decide
  exact absurd (h1.symm.trans h2) (by decide)

end Runs

end YieldVault
