import YieldVault.Founding
import YieldVault.Office
import YieldVault.SimpleHost

/-! The admin role changes hands by a handshake of nomination and acceptance. Every
other call leaves the admin and the nominee alone, so a run between a nomination and
its acceptance carries the nomination unchanged. -/
namespace YieldVault

open FixedWidth Contract

variable {σ : Type} {host : Host σ} {env : Env σ} {chain : σ} {l t : Ledger σ}

def rotation (s : Storage) : Option Address × Option Address := (s.proxy.admin,s.proxy.pendingAdmin)

def Call.isRotation : Call → Bool
  | .proposeAdmin _ | .acceptAdmin | .cancelAdminRotation => true
  | _ => false

section Calls

variable {u : Unit}

theorem rotation_of_office (h : office t = office l) : rotation t.storage = rotation l.storage :=
  congrArg (fun o : ProxyStorage × List BytesN32 => (o.1.admin,o.1.pendingAdmin)) h

theorem runStorageMigration_rotation {target : ℕ}
    (h : (runStorageMigration target).run l = .ok u t) :
    rotation t.storage = rotation l.storage := by
  simp [runStorageMigration] at h
  obtain ⟨-,rfl⟩ := h
  split_ifs <;> rfl

/-- Only the first call and the three of the handshake touch the admin and the nominee. -/
theorem dispatch_rotation {call : Call} {v : Value}
    (hi : ∀ admin token, call ≠ .initializeVault admin token) (hk : call.isRotation = false)
    (h : (dispatch env call).run l = .ok v t) : rotation t.storage = rotation l.storage := by
  cases call with
  | initializeVault admin token => exact absurd rfl (hi admin token)
  | proposeAdmin newAdmin => exact absurd hk.symm Bool.false_ne_true
  | acceptAdmin => exact absurd hk.symm Bool.false_ne_true
  | cancelAdminRotation => exact absurd hk.symm Bool.false_ne_true
  | upgrade hash =>
    obtain ⟨_,h,-⟩ := map_eq_ok.mp h
    obtain ⟨_,-,-,h⟩ := requireAdmin_bind_eq_ok.mp h
    obtain ⟨_,m,hm,h⟩ := bind_eq_ok.mp h
    obtain ⟨c,-,rfl⟩ := call_eq_ok.mp h
    have hmigrated : rotation m.storage = rotation l.storage :=
      runStorageMigration_rotation (expectOk_ok hm)
    exact hmigrated
  | migrateStorage version =>
    obtain ⟨_,h,-⟩ := map_eq_ok.mp h
    obtain ⟨_,-,-,h⟩ := requireAdmin_bind_eq_ok.mp h
    exact runStorageMigration_rotation h
  | confirmEmergencyAction confirmer id =>
    obtain ⟨_,h,-⟩ := map_eq_ok.mp h
    obtain ⟨p,m,-,happly,rfl⟩ := confirmEmergencyAction_ok h
    have hm := applyEmergency_proxy happly
    exact congrArg (fun p : ProxyStorage => (p.admin,p.pendingAdmin)) hm
  | _ => exact rotation_of_office (dispatch_office rfl h)

end Calls

section Steps

variable {A B : Address} {a : Action host}

def Rotates (l : Ledger σ) (a : Action host) : Prop :=
  ∃ inv v t, a = .invoke inv ∧ inv.call.isRotation = true ∧
    (dispatch inv.env inv.call).run l = .ok v t

def Nominates (A B : Address) (l : Ledger σ) (a : Action host) : Prop :=
  ∃ inv v t, a = .invoke inv ∧ inv.call = .proposeAdmin B ∧
    (dispatch inv.env inv.call).run l = .ok v t ∧ inv.auth A = true ∧
    l.storage.proxy.admin = some A

def Accepts (B : Address) (l : Ledger σ) (a : Action host) : Prop :=
  ∃ inv v t, a = .invoke inv ∧ inv.call = .acceptAdmin ∧
    (dispatch inv.env inv.call).run l = .ok v t ∧ inv.auth B = true ∧
    l.storage.proxy.pendingAdmin = some B

theorem Nominates.admin (h : Nominates A B l a) : l.storage.proxy.admin = some A := by
  obtain ⟨_,_,_,-,-,-,-,hA⟩ := h
  exact hA

theorem Nominates.rotates (h : Nominates A B l a) : Rotates l a := by
  obtain ⟨inv,v,t,ha,hcall,hrun,-⟩ := h
  exact ⟨inv,v,t,ha,by rw [hcall]; rfl,hrun⟩

theorem Accepts.pending (h : Accepts B l a) : l.storage.proxy.pendingAdmin = some B := by
  obtain ⟨_,_,_,-,-,-,-,hB⟩ := h
  exact hB

theorem Accepts.rotates (h : Accepts B l a) : Rotates l a := by
  obtain ⟨inv,v,t,ha,hcall,hrun,-⟩ := h
  exact ⟨inv,v,t,ha,by rw [hcall]; rfl,hrun⟩

inductive RotationStep (l : Ledger σ) (a : Action host) (s' : Storage) : Prop
  | kept (idle : ¬ Rotates l a) (same : rotation s' = rotation l.storage)
  | initialized (admin token : Address) (fresh : isInitialized l.storage = false)
      (initializes : ∃ inv, a = .invoke inv ∧ inv.call = .initializeVault admin token)
      (same : rotation s' = (some admin,l.storage.proxy.pendingAdmin))
  | nominated (A B : Address) (nominates : Nominates A B l a) (same : rotation s' = (some A,some B))
  | accepted (B : Address) (accepts : Accepts B l a) (same : rotation s' = (some B,none))
  | cancelled (A : Address) (admin : l.storage.proxy.admin = some A) (rotates : Rotates l a)
      (same : rotation s' = (some A,none))

theorem not_rotates {inv : Invocation host.vault} (hk : inv.call.isRotation = false) :
    ¬ Rotates l (.invoke inv) := by
  rintro ⟨inv',v,t,ha,hk',-⟩
  cases ha
  rw [hk] at hk'
  exact Bool.false_ne_true hk'

theorem step_rotation (a : Action host) (l : Ledger σ) :
    RotationStep l a (step host a l).storage := by
  cases a with
  | outside c =>
    refine .kept ?_ rfl
    rintro ⟨inv,v,t,ha,-⟩
    cases ha
  | invoke inv =>
    rcases invoke_or_refused inv l with ⟨v,hv⟩ | ⟨hno,hsame⟩
    · have hrun : (dispatch inv.env inv.call).run l = .ok v (step host (.invoke inv) l) := hv
      have hd := hrun
      generalize hcall : inv.call = call at hd
      cases call with
      | initializeVault admin token =>
        obtain ⟨_,hd,-⟩ := map_eq_ok.mp hd
        obtain ⟨hfresh,ht⟩ := initializeVault_ok hd
        refine .initialized admin token hfresh ⟨inv,rfl,hcall⟩ ?_
        rw [ht]
        rfl
      | proposeAdmin B =>
        simp [dispatch,proposeAdmin] at hd
        obtain ⟨A,hadmin,hauth,ht,-⟩ := hd
        refine .nominated A B ⟨inv,v,_,rfl,hcall,hrun,hauth,hadmin⟩ ?_
        rw [← ht]
        exact Prod.ext hadmin rfl
      | acceptAdmin =>
        simp [dispatch,acceptAdmin] at hd
        obtain ⟨B,hpending,hauth,_,_,ht,-⟩ := hd
        refine .accepted B ⟨inv,v,_,rfl,hcall,hrun,hauth,hpending⟩ ?_
        rw [← ht]
        rfl
      | cancelAdminRotation =>
        simp [dispatch,cancelAdminRotation] at hd
        obtain ⟨A,hadmin,hauth,ht,-⟩ := hd
        refine .cancelled A hadmin ⟨inv,v,_,rfl,by rw [hcall]; rfl,hrun⟩ ?_
        rw [← ht]
        exact Prod.ext hadmin rfl
      | _ => exact .kept (not_rotates (by rw [hcall]; rfl)) (dispatch_rotation (by simp) rfl hd)
    · refine .kept ?_ (congrArg (fun m : Ledger σ => rotation m.storage) hsame)
      rintro ⟨inv',v,t,ha,-,h⟩
      cases ha
      exact hno v t h

/-- The nomination of `B` by the admin `A`, and no successful call of the handshake since. -/
def Standing (host : Host σ) (chain : σ) (A B : Address) (acts : List (Action host)) : Prop :=
  ∃ first nomination rest, acts = first ++ nomination :: rest ∧
    Nominates A B (runFrom host chain first) nomination ∧
    Runs.Along (step host) (fun l a => ¬ Rotates l a)
      (runFrom host chain (first ++ [nomination])) rest

theorem Standing.concat {acts : List (Action host)} (h : Standing host chain A B acts)
    (ha : ¬ Rotates (runFrom host chain acts) a) : Standing host chain A B (acts ++ [a]) := by
  obtain ⟨first,nomination,rest,rfl,hnom,hrest⟩ := h
  refine ⟨first,nomination,rest ++ [a],by simp,hnom,Runs.along_append.mpr ⟨hrest,?_,trivial⟩⟩
  have hrun : runFrom host chain (first ++ nomination :: rest) =
      Runs.run (step host) rest (runFrom host chain (first ++ [nomination])) := by
    simp [runFrom,Runs.run_append]
  rwa [← hrun]

/-- There is an admin only once the contract has been initialized. -/
theorem initialized_of_admin (acts : List (Action host))
    (hA : (runFrom host chain acts).storage.proxy.admin = some A) :
    isInitialized (runFrom host chain acts).storage ≠ false := by
  rcases reachable_founded ⟨chain,acts,rfl⟩ with hu | hl
  · rw [hu.blank.admin] at hA
    cases hA
  · simp [hl.initialized]

/-- Wherever a run leads, a nominee stands nominated by the admin of that moment. -/
theorem nominee_standing (acts : List (Action host)) :
    ∀ B, (runFrom host chain acts).storage.proxy.pendingAdmin = some B →
      ∃ A, (runFrom host chain acts).storage.proxy.admin = some A ∧
        Standing host chain A B acts := by
  induction acts using List.reverseRecOn with
  | nil =>
    intro B hB
    exact absurd hB (by simp [runFrom,genesis])
  | append_singleton acts a ih =>
    have hrun : runFrom host chain (acts ++ [a]) = step host a (runFrom host chain acts) :=
      Runs.run_concat _ _ _ _
    intro B hB
    rw [hrun] at hB ⊢
    cases step_rotation a (runFrom host chain acts) with
    | kept idle same =>
      obtain ⟨A,hA,hstanding⟩ := ih B ((congrArg Prod.snd same).symm.trans hB)
      exact ⟨A,(congrArg Prod.fst same).trans hA,hstanding.concat idle⟩
    | initialized admin token fresh initializes same =>
      obtain ⟨A,hA,-⟩ := ih B ((congrArg Prod.snd same).symm.trans hB)
      exact absurd fresh (initialized_of_admin acts hA)
    | nominated A B' nominates same =>
      obtain rfl : B' = B := Option.some.inj ((congrArg Prod.snd same).symm.trans hB)
      exact ⟨A,congrArg Prod.fst same,acts,a,[],rfl,nominates,trivial⟩
    | accepted B' accepts same =>
      exact absurd ((congrArg Prod.snd same).symm.trans hB) (by simp)
    | cancelled A admin rotates same =>
      exact absurd ((congrArg Prod.snd same).symm.trans hB) (by simp)

end Steps

/-- Once there is an admin `A`, the role leaves `A` only when a `B` accepts it that `A`, as
admin, has nominated, with no successful call of the handshake in between. The first admin
is the one of `initialize`, and no other call of an initialized contract touches the admin
or the nominee. -/
theorem admin_changes_by_handshake (before : List (Action host)) (a : Action host) :
    (∀ A, (runFrom host chain before).storage.proxy.admin = some A →
      (step host a (runFrom host chain before)).storage.proxy.admin ≠ some A →
      ∃ B, (step host a (runFrom host chain before)).storage.proxy.admin = some B ∧
        Accepts B (runFrom host chain before) a ∧ Standing host chain A B before) ∧
    ((runFrom host chain before).storage.proxy.admin = none →
      ∀ B, (step host a (runFrom host chain before)).storage.proxy.admin = some B →
      ∃ inv token, a = .invoke inv ∧ inv.call = .initializeVault B token) ∧
    (isInitialized (runFrom host chain before).storage = true →
      ¬ Rotates (runFrom host chain before) a →
      rotation (step host a (runFrom host chain before)).storage =
        rotation (runFrom host chain before).storage) := by
  refine ⟨fun A hA hne => ?_,fun hnone B hB => ?_,fun hi hidle => ?_⟩
  · cases step_rotation a (runFrom host chain before) with
    | kept idle same => exact absurd ((congrArg Prod.fst same).trans hA) hne
    | initialized admin token fresh initializes same =>
      exact absurd fresh (initialized_of_admin before hA)
    | nominated A' B nominates same =>
      exact absurd ((congrArg Prod.fst same).trans (nominates.admin.symm.trans hA)) hne
    | accepted B accepts same =>
      obtain ⟨A',hA',hstanding⟩ := nominee_standing before B accepts.pending
      obtain rfl : A' = A := Option.some.inj (hA'.symm.trans hA)
      exact ⟨B,congrArg Prod.fst same,accepts,hstanding⟩
    | cancelled A' admin rotates same =>
      exact absurd ((congrArg Prod.fst same).trans (admin.symm.trans hA)) hne
  · cases step_rotation a (runFrom host chain before) with
    | kept idle same =>
      have h1 := (congrArg Prod.fst same).symm.trans hB
      exact absurd (hnone.symm.trans h1) (by simp)
    | initialized admin token fresh initializes same =>
      obtain rfl : admin = B := Option.some.inj ((congrArg Prod.fst same).symm.trans hB)
      obtain ⟨inv,ha,hcall⟩ := initializes
      exact ⟨inv,token,ha,hcall⟩
    | nominated A B' nominates same =>
      exact absurd (hnone.symm.trans nominates.admin) (by simp)
    | accepted B' accepts same =>
      obtain ⟨A,hA,-⟩ := nominee_standing before B' accepts.pending
      exact absurd (hnone.symm.trans hA) (by simp)
    | cancelled A admin rotates same => exact absurd (hnone.symm.trans admin) (by simp)
  · cases step_rotation a (runFrom host chain before) with
    | kept idle same => exact same
    | initialized admin token fresh initializes same =>
      exact absurd (fresh.symm.trans hi) Bool.false_ne_true
    | nominated A B nominates same => exact absurd nominates.rotates hidle
    | accepted B accepts same => exact absurd accepts.rotates hidle
    | cancelled A admin rotates same => exact absurd rotates hidle

section Runs

open SimpleHost

def nominatedAlice : List (Action (simpleHost id 0)) :=
  [signed admin 0 (.initializeVault admin token),signed admin 1 (.proposeAdmin alice)]

def aliceAccepts : Action (simpleHost id 0) := signed alice 2 .acceptAdmin

theorem aliceAccepts_handshake :
    ∃ B, (step (simpleHost id 0) aliceAccepts
        (runFrom (simpleHost id 0) bank nominatedAlice)).storage.proxy.admin = some B ∧
      Accepts B (runFrom (simpleHost id 0) bank nominatedAlice) aliceAccepts ∧
      Standing (simpleHost id 0) bank admin B nominatedAlice :=
  (admin_changes_by_handshake nominatedAlice aliceAccepts).1 admin rfl (by decide)

end Runs

end YieldVault
