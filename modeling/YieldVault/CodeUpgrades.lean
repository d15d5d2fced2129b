import YieldVault.AdminRotation
import YieldVault.DualApproval

/-! The vault's code is replaced on two paths: by the admin, and by the two emergency
approvers together. Neither asks for a pause, and both run in a vault that is already on
the current storage version and leave every holding in it alone. -/
namespace YieldVault

open FixedWidth Contract

variable {σ : Type} {host : Host σ} {env : Env σ} {chain : σ} {l t : Ledger σ} {a : Action host}

/-- The proxy slots are empty before `initialize`, and on the current storage version
ever after. -/
def Versioned (s : Storage) : Prop :=
  s.proxy = {} ∨ s.proxy.initialized = some true ∧ s.proxy.storageVersion = some storageVersionCurrent

theorem Versioned.of_admin {s : Storage} {A : Address} (h : Versioned s)
    (hA : s.proxy.admin = some A) :
    s.proxy.initialized = some true ∧ s.proxy.storageVersion = some storageVersionCurrent := by
  rcases h with h0 | h2
  · rw [h0] at hA
    cases hA
  · exact h2

theorem Versioned.of_pending {s : Storage} {B : Address} (h : Versioned s)
    (hB : s.proxy.pendingAdmin = some B) :
    s.proxy.initialized = some true ∧ s.proxy.storageVersion = some storageVersionCurrent := by
  rcases h with h0 | h2
  · rw [h0] at hB
    cases hB
  · exact h2

theorem Versioned.of_proxy {s s' : Storage} (h : Versioned s) (hp : s'.proxy = s.proxy) :
    Versioned s' := by
  unfold Versioned
  rw [hp]
  exact h

/-- A migration of a vault on the current version announces itself and writes nothing new. -/
theorem runStorageMigration_current {target : ℕ} {u : Unit}
    (hv : l.storage.proxy.storageVersion = some storageVersionCurrent)
    (h : (runStorageMigration target).run l = .ok u t) :
    t = ⟨l.storage,l.chain,
      .event (.migrated storageVersionCurrent storageVersionCurrent) :: l.log⟩ := by
  have hcurrent : storageVersion l.storage = storageVersionCurrent := by
    simp [storageVersion,hv]
  simp [runStorageMigration,hcurrent] at h
  obtain ⟨⟨hge,hle⟩,rfl⟩ := h
  obtain rfl : target = storageVersionCurrent := le_antisymm hle hge
  have hstorage : setProxy (fun p => { p with storageVersion := some storageVersionCurrent })
      l.storage = l.storage := by
    unfold setProxy
    rw [← hv]
  have hlate : storageVersionCurrent ≠ 0 := by decide
  simp [hlate,hstorage]

theorem upgrade_ok {hash : BytesN32} {u : Unit}
    (hv : l.storage.proxy.storageVersion = some storageVersionCurrent)
    (h : (upgrade env hash).run l = .ok u t) :
    ∃ A c, l.storage.proxy.admin = some A ∧ env.auth A = true ∧
      t = ⟨l.storage,c,.updateWasm hash ::
        .event (.migrated storageVersionCurrent storageVersionCurrent) :: l.log⟩ := by
  obtain ⟨A,hA,hauth,h⟩ := requireAdmin_bind_eq_ok.mp h
  obtain ⟨_,m,hm,h⟩ := bind_eq_ok.mp h
  obtain rfl := runStorageMigration_current hv (expectOk_ok hm)
  obtain ⟨c,-,rfl⟩ := call_eq_ok.mp h
  exact ⟨A,c,hA,hauth,rfl⟩

/-- The code is replaced in a vault on the current version, and everything held in it
stays as it is. -/
structure Replaced (hash : BytesN32) (l t : Ledger σ) : Prop where
  code : codeUpdates t.log = hash :: codeUpdates l.log
  current : storageVersion l.storage = storageVersionCurrent
  version : storageVersion t.storage = storageVersionCurrent
  books : books t = books l
  pending : t.storage.pendingWithdrawal = l.storage.pendingWithdrawal
  deposits : t.storage.userDeposit = l.storage.userDeposit

def AdminUpgrades (hash : BytesN32) (l : Ledger σ) (a : Action host) : Prop :=
  ∃ inv A, a = .invoke inv ∧ inv.call = .upgrade hash ∧ l.storage.proxy.admin = some A ∧
    inv.auth A = true

/-- A forced upgrade that the primary approver of its moment proposed in this run is
confirmed by the secondary approver, who is another. -/
def ApproversUpgrade (host : Host σ) (chain : σ) (hash : BytesN32) (before : List (Action host))
    (a : Action host) : Prop :=
  ∃ inv confirmer id p, a = .invoke inv ∧ p.kind = .forceUpgrade ∧ p.wasmHash = some hash ∧
    IssuedOnce host chain id p before ∧
    ExecutedBy host confirmer id p inv (runFrom host chain before)
      (step host a (runFrom host chain before))

section Steps

theorem dispatch_versioned {call : Call} {v : Value} (hl : Versioned l.storage)
    (h : (dispatch env call).run l = .ok v t) : Versioned t.storage := by
  cases call with
  | initializeVault admin token =>
    obtain ⟨_,h,-⟩ := map_eq_ok.mp h
    obtain ⟨-,rfl⟩ := initializeVault_ok h
    exact Or.inr ⟨rfl,rfl⟩
  | upgrade hash =>
    obtain ⟨_,h,-⟩ := map_eq_ok.mp h
    obtain ⟨A,hA,-⟩ := requireAdmin_bind_eq_ok.mp h
    obtain ⟨_,_,-,-,rfl⟩ := upgrade_ok (hl.of_admin hA).2 h
    exact hl
  | migrateStorage version =>
    obtain ⟨_,h,-⟩ := map_eq_ok.mp h
    obtain ⟨A,hA,-,h⟩ := requireAdmin_bind_eq_ok.mp h
    obtain rfl := runStorageMigration_current (hl.of_admin hA).2 h
    exact hl
  | proposeAdmin B =>
    simp [dispatch,proposeAdmin] at h
    obtain ⟨A,hA,-,rfl,-⟩ := h
    exact Or.inr (hl.of_admin hA)
  | acceptAdmin =>
    simp [dispatch,acceptAdmin] at h
    obtain ⟨B,hB,-,_,-,rfl,-⟩ := h
    exact Or.inr (hl.of_pending hB)
  | cancelAdminRotation =>
    simp [dispatch,cancelAdminRotation] at h
    obtain ⟨A,hA,-,rfl,-⟩ := h
    exact Or.inr (hl.of_admin hA)
  | confirmEmergencyAction confirmer id =>
    obtain ⟨_,h,-⟩ := map_eq_ok.mp h
    obtain ⟨p,m,-,happly,rfl⟩ := confirmEmergencyAction_ok h
    have hm := applyEmergency_proxy happly
    exact hl.of_proxy hm
  | _ => exact hl.of_proxy (congrArg Prod.fst (dispatch_office rfl h))

theorem step_versioned (l : Ledger σ) (a : Action host) (h : Versioned l.storage) :
    Versioned (step host a l).storage :=
  step_storage (fun _ _ _ _ hrun hl => dispatch_versioned hl hrun) l a h

theorem run_versioned (acts : List (Action host)) :
    Versioned (runFrom host chain acts).storage := by
  have hstep : ∀ (l : Ledger σ) (a : Action host), Versioned l.storage →
      Versioned (step host a l).storage := step_versioned
  exact Runs.invariant hstep acts (Or.inl rfl)

theorem Live.current (hl : Live l.storage) (hv : Versioned l.storage) :
    storageVersion l.storage = storageVersionCurrent := by
  rcases hv with h0 | h2
  · have h1 := hl.initialized
    rw [isInitialized,h0] at h1
    cases h1
  · simp [storageVersion,h2.2]

theorem Unfounded.version (hu : Unfounded l) (hv : Versioned l.storage) :
    storageVersion l.storage = 0 := by
  rcases hv with h0 | h2
  · simp [storageVersion,h0]
  · have h1 := hu.blank.isInitialized
    rw [YieldVault.isInitialized,h2.1] at h1
    cases h1

theorem step_version (hf : Founded l) (hv : Versioned l.storage) (a : Action host) :
    storageVersion l.storage ≤ storageVersion (step host a l).storage := by
  rcases hf with hu | hl
  · rw [hu.version hv]
    exact Nat.zero_le _
  · rcases step_cases hl a with ⟨_,_,_,-,-,-,hbook⟩ | ⟨-,hs⟩
    · exact hbook.kept.version
    · rw [hs]

theorem version_le (before after : List (Action host)) :
    storageVersion (runFrom host chain before).storage ≤
      storageVersion (runFrom host chain (before ++ after)).storage := by
  induction after using List.reverseRecOn with
  | nil => rw [List.append_nil]
  | append_singleton after a ih =>
    have hrun : runFrom host chain (before ++ (after ++ [a])) =
        step host a (runFrom host chain (before ++ after)) := by
      rw [← List.append_assoc]
      exact Runs.run_concat _ _ _ _
    rw [hrun]
    exact ih.trans (step_version (run_founded _) (run_versioned _) a)

theorem upgrade_replaced {hash : BytesN32} {u : Unit} (hv : Versioned l.storage)
    (h : (upgrade env hash).run l = .ok u t) : Replaced hash l t := by
  obtain ⟨A,hA,-⟩ := requireAdmin_bind_eq_ok.mp h
  have hcurrent := (hv.of_admin hA).2
  obtain ⟨_,c,-,-,rfl⟩ := upgrade_ok hcurrent h
  have hversion : storageVersion l.storage = storageVersionCurrent := by
    simp [storageVersion,hcurrent]
  exact ⟨rfl,hversion,hversion,rfl,rfl,rfl⟩

section Forced

variable {confirmer : Address} {id : ℕ} {p : EmergencyProposal} {inv : Invocation host.vault}

theorem ExecutedBy.replaced (h : ExecutedBy host confirmer id p inv l t)
    (hkind : p.kind = .forceUpgrade)
    (hversion : storageVersion l.storage = storageVersionCurrent) :
    ∃ hash, p.wasmHash = some hash ∧ Replaced hash l t := by
  obtain ⟨m,happly,rfl⟩ := h.effect
  obtain ⟨hash,c,hhash,rfl⟩ := forceUpgrade_ok hkind happly
  exact ⟨hash,hhash,rfl,hversion,hversion,rfl,rfl,rfl⟩

theorem ExecutedBy.code_kept (h : ExecutedBy host confirmer id p inv l t)
    (hkind : p.kind ≠ .forceUpgrade) : codeUpdates t.log = codeUpdates l.log := by
  obtain ⟨m,happly,rfl⟩ := h.effect
  have hm := applyEmergency_office hkind happly
  exact congrArg Prod.snd hm

end Forced

theorem dispatch_code {call : Call} {v : Value} (hl : Versioned l.storage)
    (hu : ∀ hash, call ≠ .upgrade hash) (hc : ∀ confirmer id, call ≠ .confirmEmergencyAction confirmer id)
    (h : (dispatch env call).run l = .ok v t) : codeUpdates t.log = codeUpdates l.log := by
  cases call with
  | initializeVault admin token =>
    obtain ⟨_,h,-⟩ := map_eq_ok.mp h
    obtain ⟨-,rfl⟩ := initializeVault_ok h
    rfl
  | upgrade hash => exact absurd rfl (hu hash)
  | migrateStorage version =>
    obtain ⟨_,h,-⟩ := map_eq_ok.mp h
    obtain ⟨A,hA,-,h⟩ := requireAdmin_bind_eq_ok.mp h
    obtain rfl := runStorageMigration_current (hl.of_admin hA).2 h
    rfl
  | proposeAdmin B =>
    simp [dispatch,proposeAdmin] at h
    obtain ⟨_,-,-,rfl,-⟩ := h
    rfl
  | acceptAdmin =>
    simp [dispatch,acceptAdmin] at h
    obtain ⟨_,-,-,_,-,rfl,-⟩ := h
    rfl
  | cancelAdminRotation =>
    simp [dispatch,cancelAdminRotation] at h
    obtain ⟨_,-,-,rfl,-⟩ := h
    rfl
  | confirmEmergencyAction confirmer id => exact absurd rfl (hc confirmer id)
  | _ => exact congrArg Prod.snd (dispatch_office rfl h)

theorem step_code (before : List (Action host)) (a : Action host) :
    codeUpdates (step host a (runFrom host chain before)).log =
      codeUpdates (runFrom host chain before).log ∨
    ∃ hash, Replaced hash (runFrom host chain before) (step host a (runFrom host chain before)) ∧
      (AdminUpgrades hash (runFrom host chain before) a ∨
        ApproversUpgrade host chain hash before a) := by
  have hversioned : Versioned (runFrom host chain before).storage := run_versioned before
  have hfounded : Founded (runFrom host chain before) := run_founded before
  cases a with
  | outside c => exact Or.inl rfl
  | invoke inv =>
    rcases invoke_cases inv (runFrom host chain before) with ⟨v,hv⟩ | hsame
    · have hrun : (dispatch inv.env inv.call).run (runFrom host chain before) =
          .ok v (step host (.invoke inv) (runFrom host chain before)) := hv
      have hd := hrun
      generalize hcall : inv.call = call at hd
      cases call with
      | upgrade hash =>
        obtain ⟨_,hd,-⟩ := map_eq_ok.mp hd
        obtain ⟨A,hA,hauth,-⟩ := requireAdmin_bind_eq_ok.mp hd
        exact Or.inr ⟨hash,upgrade_replaced hversioned hd,Or.inl ⟨inv,A,rfl,hcall,hA,hauth⟩⟩
      | confirmEmergencyAction confirmer id =>
        have hex : CarriesOut id (runFrom host chain before) (.invoke inv : Action host) :=
          ⟨inv,confirmer,v,_,rfl,hcall,hrun⟩
        obtain ⟨inv',confirmer',p,ha,hby⟩ := hex.by_secondary
        by_cases hkind : p.kind = .forceUpgrade
        · rcases hfounded with hu | hl
          · exact absurd (hby.confirmable.secondary.symm.trans hu.blank.secondary) (by simp)
          · obtain ⟨hash,hhash,hreplaced⟩ := hby.replaced hkind (hl.current hversioned)
            exact Or.inr ⟨hash,hreplaced,Or.inr ⟨inv',confirmer',id,p,ha,hkind,hhash,
              stored_issuedOnce hby.confirmable.stored,hby⟩⟩
        · exact Or.inl (hby.code_kept hkind)
      | _ => exact Or.inl (dispatch_code hversioned (by simp) (by simp) hd)
    · exact Or.inl (congrArg (fun m : Ledger σ => codeUpdates m.log) hsame)

end Steps

/-- In every run the code is replaced only in a vault on the current storage version, by
its admin or by the two approvers of a forced upgrade, and nothing held in the vault
changes with it. The storage version never falls. -/
theorem code_replaced_by_authority (before : List (Action host)) (a : Action host) :
    (codeUpdates (step host a (runFrom host chain before)).log ≠
        codeUpdates (runFrom host chain before).log →
      ∃ hash, Replaced hash (runFrom host chain before) (step host a (runFrom host chain before)) ∧
        (AdminUpgrades hash (runFrom host chain before) a ∨
          ApproversUpgrade host chain hash before a)) ∧
    ∀ after, storageVersion (runFrom host chain before).storage ≤
      storageVersion (runFrom host chain (before ++ after)).storage :=
  ⟨fun hne => (step_code before a).resolve_left hne,version_le before⟩

section Runs

open SimpleHost

def newCode : BytesN32 := 7

def openVault : List (Action (simpleHost id 0)) := [signed admin 0 (.initializeVault admin token)]

def adminUpgrades : Action (simpleHost id 0) := signed admin 1 (.upgrade newCode)

theorem adminUpgrades_authorised : ∃ hash,
    Replaced hash (runFrom (simpleHost id 0) bank openVault)
      (step (simpleHost id 0) adminUpgrades (runFrom (simpleHost id 0) bank openVault)) ∧
    (AdminUpgrades hash (runFrom (simpleHost id 0) bank openVault) adminUpgrades ∨
      ApproversUpgrade (simpleHost id 0) bank hash openVault adminUpgrades) :=
  (code_replaced_by_authority openVault adminUpgrades).1 (by decide)

/-- Nothing asks for a pause before an upgrade. -/
theorem upgrade_not_paused : ¬ ∀ (before : List (Action (simpleHost id 0)))
    (a : Action (simpleHost id 0)),
    codeUpdates (step (simpleHost id 0) a (runFrom (simpleHost id 0) bank before)).log ≠
      codeUpdates (runFrom (simpleHost id 0) bank before).log →
    (getState (runFrom (simpleHost id 0) bank before).storage).isPaused = true := by
  intro h
  have hpaused := h openVault adminUpgrades (by decide)
  exact absurd hpaused (by decide)

end Runs

end YieldVault
