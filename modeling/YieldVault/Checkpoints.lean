import YieldVault.StorageParts
import YieldVault.ShareLedger

/-! Share checkpoints. The total is recorded when the admin makes a checkpoint, a user's
balance when the user asks for it; the two agree as far as the balance has not changed
in between. -/
namespace YieldVault

open FixedWidth Contract

variable {σ : Type} {host : Host σ} {env : Env σ} {chain : σ} {l t : Ledger σ}

def Creates (checkpoint : ℕ) (l : Ledger σ) (a : Action host) : Prop :=
  ∃ inv t, a = .invoke inv ∧ inv.call = .createCheckpoint ∧
    (dispatch inv.env inv.call).run l = .ok (.id checkpoint) t

/-- The action records the user's balance under the checkpoint. -/
def Snapshots (user : Address) (checkpoint : ℕ) (l : Ledger σ) (a : Action host) : Prop :=
  ∃ inv v t, a = .invoke inv ∧ inv.call = .snapshotUserBalance user ∧
    (dispatch inv.env inv.call).run l = .ok v t ∧ l.storage.checkpointNonce = some checkpoint

section Steps

variable {checkpoint : ℕ} {user : Address} {a : Action host}

inductive CheckpointStep (l : Ledger σ) (a : Action host) (s' : Storage) : Prop
  | kept (same : part .checkpoints s' = part .checkpoints l.storage)
  | created (creates : Creates (l.storage.checkpointNonce.getD 0+1) l a)
      (same : part .checkpoints s' =
        part .checkpoints (checkpointed (l.storage.checkpointNonce.getD 0+1) l.storage))
  | taken (user : Address) (checkpoint : ℕ) (takes : Snapshots user checkpoint l a)
      (same : part .checkpoints s' = part .checkpoints (snapshotTaken user checkpoint l.storage))

theorem step_checkpoints (a : Action host) (l : Ledger σ) :
    CheckpointStep l a (step host a l).storage := by
  rcases step_part .checkpoints a l with hpart | ⟨inv,v,rfl,hw,hv⟩
  · exact .kept hpart
  · have hrun := hv
    generalize hcall : inv.call = call at hw hv
    cases call with
    | createCheckpoint =>
      obtain ⟨n,hcreate,rfl⟩ := map_eq_ok.mp hv
      obtain ⟨admin,-,-,-,hn,ht⟩ := createCheckpoint_ok.mp hcreate
      rw [← hn] at hrun ht
      refine .created ⟨inv,_,rfl,hcall,hrun⟩ ?_
      rw [← ht]
    | snapshotUserBalance user =>
      obtain ⟨_,htake,-⟩ := map_eq_ok.mp hv
      obtain ⟨checkpoint,-,hnonce,ht⟩ := snapshotUserBalance_ok.mp htake
      refine .taken user checkpoint ⟨inv,v,_,rfl,hcall,hrun,hnonce⟩ ?_
      rw [← ht]
    | setting setting => cases setting <;> simp [Call.writes] at hw
    | _ => simp [Call.writes] at hw

def latest (l : Ledger σ) : ℕ := l.storage.checkpointNonce.getD 0

theorem latest_le (a : Action host) (l : Ledger σ) : latest l ≤ latest (step host a l) := by
  have hlatest : latest (step host a l) =
      (part .checkpoints (step host a l).storage).checkpointNonce.getD 0 := rfl
  rw [hlatest]
  cases step_checkpoints a l with
  | kept same =>
    rw [same]
    exact le_rfl
  | created creates same =>
    rw [same]
    exact Nat.le_succ _
  | taken user checkpoint takes same =>
    rw [same]
    exact le_rfl

theorem run_latest_le (acts : List (Action host)) (l : Ledger σ) :
    latest l ≤ latest (Runs.run (step host) acts l) := by
  induction acts generalizing l with
  | nil => exact le_rfl
  | cons a acts ih => exact (latest_le a l).trans (ih _)

/-- A new checkpoint takes the next number and the current supply. -/
theorem Creates.recorded (h : Creates checkpoint l a) :
    latest l+1 = checkpoint ∧ latest (step host a l) = checkpoint ∧
      (step host a l).storage.checkpointTotalShares checkpoint =
        some (getState l.storage).totalShares := by
  obtain ⟨inv,t,rfl,hcall,hv⟩ := h
  rw [step_of_ok hv]
  rw [hcall] at hv
  obtain ⟨n,hcreate,hn⟩ := map_eq_ok.mp hv
  obtain rfl := Value.id.inj hn
  obtain ⟨admin,-,-,-,hnext,rfl⟩ := createCheckpoint_ok.mp hcreate
  exact ⟨hnext,rfl,Function.update_self _ _ _⟩

theorem Snapshots.recorded (h : Snapshots user checkpoint l a) :
    (step host a l).storage.userBalanceAt user checkpoint = some (balance l.storage user) := by
  obtain ⟨inv,v,t,rfl,hcall,hv,hnonce⟩ := h
  rw [step_of_ok hv]
  rw [hcall] at hv
  obtain ⟨_,htake,-⟩ := map_eq_ok.mp hv
  obtain ⟨checkpoint',-,hnonce',rfl⟩ := snapshotUserBalance_ok.mp htake
  obtain rfl := Option.some.inj (hnonce.symm.trans hnonce')
  simp [snapshotTaken]

theorem totalShares_kept (h : ¬ Creates checkpoint l a) :
    (step host a l).storage.checkpointTotalShares checkpoint =
      l.storage.checkpointTotalShares checkpoint := by
  change (part .checkpoints (step host a l).storage).checkpointTotalShares checkpoint = _
  cases step_checkpoints a l with
  | kept same =>
    rw [same]
    rfl
  | created creates same =>
    rw [same]
    have hne : checkpoint ≠ l.storage.checkpointNonce.getD 0+1 := fun he => h (he ▸ creates)
    exact Function.update_of_ne hne _ _
  | taken user checkpoint' takes same =>
    rw [same]
    rfl

theorem userBalance_kept (h : ¬ Snapshots user checkpoint l a) :
    (step host a l).storage.userBalanceAt user checkpoint =
      l.storage.userBalanceAt user checkpoint := by
  change (part .checkpoints (step host a l).storage).userBalanceAt user checkpoint = _
  cases step_checkpoints a l with
  | kept same =>
    rw [same]
    rfl
  | created creates same =>
    rw [same]
    rfl
  | taken user' checkpoint' takes same =>
    rw [same]
    change Function.update l.storage.userBalanceAt user' _ user checkpoint = _
    by_cases huser : user = user'
    · subst huser
      have hne : checkpoint ≠ checkpoint' := fun he => h (he ▸ takes)
      rw [Function.update_self,Function.update_of_ne hne]
    · rw [Function.update_of_ne huser]

end Steps

section Histories

variable {checkpoint : ℕ} {user : Address} {acts before before' rest rest' : List (Action host)}
  {a b : Action host}

theorem latest_le_extended (chain : σ) (before : List (Action host)) (a : Action host)
    (mid : List (Action host)) : latest (step host a (runFrom host chain before)) ≤
      latest (runFrom host chain (before ++ a :: mid)) := by
  have h := run_latest_le mid (step host a (runFrom host chain before))
  rwa [← Runs.run_cons,runFrom,← Runs.run_append] at h

theorem created_once (ha : Creates checkpoint (runFrom host chain before) a)
    (hb : Creates checkpoint (runFrom host chain before') b)
    (h : before ++ a :: rest = before' ++ b :: rest') : before' = before ∧ b = a := by
  obtain ⟨hnext,hlatest,-⟩ := ha.recorded
  obtain ⟨hnext',hlatest',-⟩ := hb.recorded
  rcases Runs.positions h with heq | ⟨mid,rfl⟩ | ⟨mid,rfl⟩
  · exact heq
  · have hle := latest_le_extended chain before a mid
    omega
  · have hle := latest_le_extended chain before' b mid
    omega

theorem taken_later (ha : Creates checkpoint (runFrom host chain before) a)
    (hb : Snapshots user checkpoint (runFrom host chain before') b)
    (h : before ++ a :: rest = before' ++ b :: rest') : ∃ mid, before' = before ++ a :: mid := by
  obtain ⟨hnext,-,-⟩ := ha.recorded
  have hlatest : latest (runFrom host chain before') = checkpoint := by
    obtain ⟨_,_,_,-,-,-,hnonce⟩ := hb
    rw [latest,hnonce]
    rfl
  rcases Runs.positions h with ⟨rfl,rfl⟩ | hmid | ⟨mid,rfl⟩
  · omega
  · exact hmid
  · have hstep := latest_le b (runFrom host chain before')
    have hle := latest_le_extended chain before' b mid
    omega

theorem totalSharesAt_created (hacts : acts = before ++ a :: rest)
    (ha : Creates checkpoint (runFrom host chain before) a) :
    totalSharesAt (runFrom host chain acts).storage checkpoint =
      (getState (runFrom host chain before).storage).totalShares := by
  have hkeep : ∀ (l : Ledger σ) (b : Action host), ¬ Creates checkpoint l b →
      (step host b l).storage.checkpointTotalShares checkpoint =
        l.storage.checkpointTotalShares checkpoint := fun l b hno => totalShares_kept hno
  rcases Runs.last_writer (step host) (fun l => l.storage.checkpointTotalShares checkpoint) hkeep
    (genesis chain) acts with ⟨hnone,-⟩ | ⟨before',b,rest',hacts',hb,-,hlast⟩
  · rw [hacts] at hnone
    exact absurd ha (Runs.along_append.mp hnone).2.1
  · obtain ⟨rfl,rfl⟩ := created_once ha hb (hacts.symm.trans hacts')
    have hrecorded : (runFrom host chain acts).storage.checkpointTotalShares checkpoint = _ :=
      hlast.trans ha.recorded.2.2
    rw [totalSharesAt,hrecorded]
    rfl

/-- A recorded balance is what the user held at the last recording, which came after the
creation. -/
theorem balanceAt_taken (hacts : acts = before ++ a :: rest)
    (ha : Creates checkpoint (runFrom host chain before) a)
    (htaken : ((runFrom host chain acts).storage.userBalanceAt user checkpoint).isSome = true) :
    ∃ mid b rest', acts = before ++ a :: mid ++ b :: rest' ∧
      Snapshots user checkpoint (runFrom host chain (before ++ a :: mid)) b ∧
      balanceAt (runFrom host chain acts).storage user checkpoint =
        balance (runFrom host chain (before ++ a :: mid)).storage user := by
  have hkeep : ∀ (l : Ledger σ) (b : Action host), ¬ Snapshots user checkpoint l b →
      (step host b l).storage.userBalanceAt user checkpoint =
        l.storage.userBalanceAt user checkpoint := fun l b hno => userBalance_kept hno
  rcases Runs.last_writer (step host) (fun l => l.storage.userBalanceAt user checkpoint) hkeep
    (genesis chain) acts with ⟨-,hstart⟩ | ⟨before',b,rest',hacts',hb,-,hlast⟩
  · have hnone : (runFrom host chain acts).storage.userBalanceAt user checkpoint = none := hstart
    rw [hnone] at htaken
    cases htaken
  · obtain ⟨mid,rfl⟩ := taken_later ha hb (hacts.symm.trans hacts')
    have hrecorded : (runFrom host chain acts).storage.userBalanceAt user checkpoint = _ :=
      hlast.trans hb.recorded
    refine ⟨mid,b,rest',hacts',hb,?_⟩
    rw [balanceAt,hrecorded]
    rfl

end Histories

/-- Whoever has a balance recorded holds what they held when the checkpoint was made. -/
def SnapshotsCurrent (host : Host σ) (chain : σ) (acts : List (Action host)) : Prop :=
  ∀ before a mid b rest checkpoint user, acts = before ++ a :: mid ++ b :: rest →
    Creates checkpoint (runFrom host chain before) a →
    Snapshots user checkpoint (runFrom host chain (before ++ a :: mid)) b →
    balance (runFrom host chain (before ++ a :: mid)).storage user =
      balance (runFrom host chain before).storage user

/-- While balances are only recorded before they change, and no deferred withdrawal burns more
than its owner has left, the balances recorded under a checkpoint are those held when it was
made, and those of any set of users sum to at most the recorded total. -/
theorem checkpoints_consistent {acts : List (Action host)}
    (hc : Runs.Along (step host) CoveredExecution (genesis chain) acts)
    (hs : SnapshotsCurrent host chain acts) {before rest : List (Action host)} {a : Action host}
    {checkpoint : ℕ} (hacts : acts = before ++ a :: rest)
    (ha : Creates checkpoint (runFrom host chain before) a) :
    let s := (runFrom host chain acts).storage
    (∀ user, (s.userBalanceAt user checkpoint).isSome = true →
      balanceAt s user checkpoint = balance (runFrom host chain before).storage user) ∧
    ∀ users : Finset Address, (∀ user ∈ users, (s.userBalanceAt user checkpoint).isSome = true) →
      ∑ user ∈ users, balanceAt s user checkpoint ≤ totalSharesAt s checkpoint := by
  intro s
  have hheld : ∀ user, (s.userBalanceAt user checkpoint).isSome = true →
      balanceAt s user checkpoint = balance (runFrom host chain before).storage user := by
    intro user htaken
    obtain ⟨mid,b,rest',hacts',hb,hbalance⟩ := balanceAt_taken hacts ha htaken
    exact hbalance.trans (hs before a mid b rest' checkpoint user hacts' ha hb)
  refine ⟨hheld,fun users husers => ?_⟩
  have hsound : (books (runFrom host chain before)).Sound := by
    rw [hacts] at hc
    exact run_sound (Runs.along_append.mp hc).1
  calc ∑ user ∈ users, balanceAt s user checkpoint
      = ∑ user ∈ users, balance (runFrom host chain before).storage user :=
        Finset.sum_congr rfl fun user huser => hheld user (husers user huser)
    _ ≤ (getState (runFrom host chain before).storage).totalShares :=
        sum_le_hasSum users (fun user _ => hsound.balance user) hsound.balanced.sum
    _ = totalSharesAt s checkpoint := (totalSharesAt_created hacts ha).symm

section Runs

/-- The action is no call that mints or burns shares. -/
def KeepsBalances : Action host → Prop
  | .invoke inv => Part.balances ∉ inv.call.writes
  | .outside _ => True

theorem run_balance_kept {acts : List (Action host)} (h : ∀ a ∈ acts, KeepsBalances a) :
    balance (Runs.run (step host) acts l).storage = balance l.storage := by
  induction acts generalizing l with
  | nil => rfl
  | cons a acts ih =>
    have hstep : balance (step host a l).storage = balance l.storage := by
      rcases step_part .balances a l with hpart | ⟨inv,v,rfl,hw,-⟩
      · exact read_of_part (fun _ => rfl) hpart
      · exact absurd hw (h _ List.mem_cons_self)
    exact (ih fun b hb => h b (List.mem_cons_of_mem _ hb)).trans hstep

/-- It is enough that no shares are minted or burned from the first checkpoint on. -/
theorem snapshotsCurrent_of_kept {first rest : List (Action host)}
    (hfirst : ∀ inv, .invoke inv ∈ first → inv.call ≠ .createCheckpoint)
    (hrest : ∀ a ∈ rest, KeepsBalances a) : SnapshotsCurrent host chain (first ++ rest) := by
  intro before a mid b rest' checkpoint user hacts ha hb
  have hmid : ∀ c ∈ a :: mid, KeepsBalances c := by
    obtain ⟨inv,_,rfl,hcall,-⟩ := ha
    rw [List.append_assoc] at hacts
    rcases List.append_eq_append_iff.mp hacts with ⟨as,hbefore,hmid⟩ | ⟨as,hbefore,hmid⟩
    · intro c hc
      refine hrest c ?_
      rw [hmid]
      exact List.mem_append_right _ (List.mem_append_left _ hc)
    · cases as with
      | nil =>
        intro c hc
        refine hrest c ?_
        rw [← List.nil_append rest,← hmid]
        exact List.mem_append_left _ hc
      | cons x as =>
        obtain ⟨rfl,-⟩ := List.cons.inj hmid
        have hmem : .invoke inv ∈ first := by
          rw [hbefore]
          exact List.mem_append_right _ List.mem_cons_self
        exact absurd hcall (hfirst inv hmem)
  rw [runFrom,runFrom,Runs.run_append,run_balance_kept hmid]

theorem creates_of_isOk {inv : Invocation host.vault} (hcall : inv.call = .createCheckpoint)
    (hok : ((dispatch inv.env inv.call).run l).isOk = true) :
    Creates (latest l+1) l (.invoke inv) := by
  obtain ⟨v,t,hv⟩ := Outcome.isOk_iff.mp hok
  have hcreate := hv
  rw [hcall] at hcreate
  obtain ⟨n,hrun,rfl⟩ := map_eq_ok.mp hcreate
  obtain ⟨admin,-,-,-,hn,-⟩ := createCheckpoint_ok.mp hrun
  rw [← hn] at hv
  exact ⟨inv,t,rfl,hcall,hv⟩

open SimpleHost

def checkpointedVault : List (Action (simpleHost id 0)) :=
  [signed admin 0 (.initializeVault admin token),
    signed alice 1 (.deposit alice 1000),
    signed bob 2 (.deposit bob 500)]

def adminCheckpoint : Invocation (simpleHost id 0).vault :=
  signedCall admin 3 .createCheckpoint

/-- Both users record their balances before they change. -/
def recordedBalances : List (Action (simpleHost id 0)) :=
  [.invoke adminCheckpoint,signed alice 4 (.snapshotUserBalance alice),
    signed bob 5 (.snapshotUserBalance bob)]

theorem recordedBalances_consistent :
    balanceAt (runFrom (simpleHost id 0) bank (checkpointedVault ++ recordedBalances)).storage
        alice 1 = balance (runFrom (simpleHost id 0) bank checkpointedVault).storage alice ∧
      ∑ user ∈ {alice,bob}, balanceAt
          (runFrom (simpleHost id 0) bank (checkpointedVault ++ recordedBalances)).storage user 1 ≤
        totalSharesAt
          (runFrom (simpleHost id 0) bank (checkpointedVault ++ recordedBalances)).storage 1 := by
  have hc : Runs.Along (step (simpleHost id 0)) CoveredExecution (genesis bank)
      (checkpointedVault ++ recordedBalances) :=
    ⟨trivial,trivial,trivial,trivial,trivial,trivial,trivial⟩
  have hs : SnapshotsCurrent (simpleHost id 0) bank (checkpointedVault ++ recordedBalances) := by
    refine snapshotsCurrent_of_kept ?_ ?_
    · simp [checkpointedVault,signed]
    · simp [recordedBalances,adminCheckpoint,signed,signedCall,KeepsBalances,Call.writes]
  have ha : Creates 1 (runFrom (simpleHost id 0) bank checkpointedVault)
      (.invoke adminCheckpoint) := creates_of_isOk rfl (by decide +kernel)
  obtain ⟨hheld,hsum⟩ := checkpoints_consistent hc hs rfl ha
  refine ⟨hheld alice (by decide),hsum {alice,bob} fun user huser => ?_⟩
  rcases Finset.mem_insert.mp huser with rfl | huser
  · decide
  · obtain rfl := Finset.mem_singleton.mp huser
    decide

/-- Alice deposits between the checkpoint and the recording. -/
def lateRecording : List (Action (simpleHost id 0)) :=
  checkpointedVault ++ [.invoke adminCheckpoint,signed alice 4 (.deposit alice 1000),
    signed alice 5 (.snapshotUserBalance alice)]

theorem lateRecording_inconsistent :
    ¬ ∀ (acts before rest : List (Action (simpleHost id 0))) (a : Action (simpleHost id 0))
      (checkpoint : ℕ) (user : Address), acts = before ++ a :: rest →
      Creates checkpoint (runFrom (simpleHost id 0) bank before) a →
      ((runFrom (simpleHost id 0) bank acts).storage.userBalanceAt user checkpoint).isSome = true →
      balanceAt (runFrom (simpleHost id 0) bank acts).storage user checkpoint =
          balance (runFrom (simpleHost id 0) bank before).storage user ∧
        balanceAt (runFrom (simpleHost id 0) bank acts).storage user checkpoint ≤
          totalSharesAt (runFrom (simpleHost id 0) bank acts).storage checkpoint := by
  intro h
  have ha : Creates 1 (runFrom (simpleHost id 0) bank checkpointedVault)
      (.invoke adminCheckpoint) := creates_of_isOk rfl (by decide +kernel)
  have h1 := (h lateRecording checkpointedVault _ _ 1 alice rfl ha (by decide)).2
  have h2 : balanceAt (runFrom (simpleHost id 0) bank lateRecording).storage alice 1 = 2000 := by
    decide
  have h3 : totalSharesAt (runFrom (simpleHost id 0) bank lateRecording).storage 1 = 1500 := by
    decide
  omega

end Runs

end YieldVault
