import YieldVault.Administration

/-! Dual-approval emergency actions, share checkpoints, the DAO's choice of the
BENJI strategy, and the index of tracked shipments. -/
namespace YieldVault

open FixedWidth Contract

variable {σ : Type}

section Emergency

def setEmergencyProposal (id : ℕ) (proposal : EmergencyProposal) (s : Storage) : Storage :=
  { s with emergencyProposal := Function.update s.emergencyProposal id (some proposal) }

def nextProposalId : VaultM σ ℕ := do
  let nonce ← load fun s => s.emergencyProposalNonce.getD 0
  let next ← expect (checkedAddUnsigned 32 nonce 1) "proposal nonce overflow"
  store fun s => { s with emergencyProposalNonce := some next }
  pure next

def proposeEmergencyAction (env : Env σ) (initiator : Address) (kind : EmergencyActionKind)
    (pauseReasonCode : ℕ) (divestAmount : Option ℤ) (wasmHash : Option BytesN32) : VaultM σ ℕ := do
  requireAuth env initiator
  let stored ← load fun s => s.emergencyApproverPrimary
  let primary ← expect stored "primary approver not set"
  demand (initiator = primary) "only primary approver can initiate"
  let proposalId ← nextProposalId
  store (setEmergencyProposal proposalId
    ⟨kind,pauseReasonCode,divestAmount,wasmHash,initiator,false,false⟩)
  publish (.emergencyProposed proposalId kind.code)
  pure proposalId

def pauseReasonFromCode : ℕ → PauseReason
  | 0 => .none
  | 1 => .securityIncident
  | 2 => .oracleFailure
  | 3 => .liquidityCrisis
  | 4 => .governance
  | 5 => .maintenance
  | 6 => .other
  | _ => .securityIncident

def applyEmergency (env : Env σ) (proposal : EmergencyProposal) : VaultM σ Unit :=
  match proposal.kind with
  | .pause => store (setPaused true (some (pauseReasonFromCode proposal.pauseReasonCode)))
  | .unpause => store (setPaused false none)
  | .emergencyDivest => do
    let amount ← expect proposal.divestAmount "divest amount required"
    divest env amount
  | .forceUpgrade => do
    let hash ← expect proposal.wasmHash "wasm hash required"
    updateCurrentContractWasm env hash

def confirmEmergencyAction (env : Env σ) (confirmer : Address) (proposalId : ℕ) :
    VaultM σ Unit := do
  requireAuth env confirmer
  let approver ← load fun s => s.emergencyApproverSecondary
  let secondary ← expect approver "secondary approver not set"
  demand (confirmer = secondary) "only secondary approver can confirm"
  let stored ← load fun s => s.emergencyProposal proposalId
  let proposal ← expect stored "proposal not found"
  demand (proposal.executed = false) "proposal already executed"
  demand (proposal.confirmed = false) "proposal already confirmed"
  demand (proposal.initiator ≠ confirmer) "confirmer must differ from initiator"
  store (setEmergencyProposal proposalId { proposal with confirmed := true })
  applyEmergency env proposal
  store (setEmergencyProposal proposalId { proposal with confirmed := true, executed := true })
  publish (.emergencyExecuted proposalId proposal.kind.code)

end Emergency

section Checkpoints

def createCheckpoint (env : Env σ) : VaultM σ ℕ := do
  let _ ← requireAdmin env
  let nonce ← load fun s => s.checkpointNonce.getD 0
  let next ← expect (checkedAddUnsigned 32 nonce 1) "overflow"
  let state ← load getState
  store fun s => { s with
    checkpointNonce := some next
    checkpointTotalShares := Function.update s.checkpointTotalShares next (some state.totalShares)
    checkpointTotalAssets := Function.update s.checkpointTotalAssets next (some state.totalAssets) }
  publish (.checkpoint next)
  pure next

def totalSharesAt (s : Storage) (checkpoint : ℕ) : ℤ := (s.checkpointTotalShares checkpoint).getD 0
def totalAssetsAt (s : Storage) (checkpoint : ℕ) : ℤ := (s.checkpointTotalAssets checkpoint).getD 0

def snapshotUserBalance (env : Env σ) (user : Address) : VaultM σ Unit := do
  requireAuth env user
  let nonce ← load fun s => s.checkpointNonce
  let checkpoint ← expect nonce "no checkpoint"
  let held ← load (balance · user)
  store fun s => { s with
    userCheckpoint := Function.update s.userCheckpoint user (some checkpoint)
    userBalanceAt := Function.update s.userBalanceAt user
      (Function.update (s.userBalanceAt user) checkpoint (some held)) }

def balanceAt (s : Storage) (user : Address) (checkpoint : ℕ) : ℤ :=
  (s.userBalanceAt user checkpoint).getD 0

end Checkpoints

section Dao

def setProposal (id : ℕ) (proposal : StrategyProposal) (s : Storage) : Storage :=
  { s with proposal := Function.update s.proposal id (some proposal) }

def setVote (id : ℕ) (voter : Address) (s : Storage) : Storage :=
  { s with vote := Function.update s.vote id (Function.update (s.vote id) voter (some true)) }

def createStrategyProposal (env : Env σ) (proposer strategy : Address) : VaultM σ ℕ := do
  requireAuth env proposer
  let nonce ← load fun s => s.proposalNonce.getD 0
  let next ← expect (checkedAddUnsigned 32 nonce 1) "overflow"
  store fun s => { s with proposalNonce := some next }
  store (setProposal next ⟨strategy,0,0,false⟩)
  pure next

def tally (proposal : StrategyProposal) (support : Bool) (weight : ℤ) : Option StrategyProposal :=
  if support then
    (checkedAdd 128 proposal.yesVotes weight).map fun votes => { proposal with yesVotes := votes }
  else
    (checkedAdd 128 proposal.noVotes weight).map fun votes => { proposal with noVotes := votes }

def voteOnProposal (env : Env σ) (voter : Address) (proposalId : ℕ) (support : Bool)
    (weight : ℤ) : VaultM σ Unit := do
  requireAuth env voter
  demand (0 < weight) "weight must be > 0"
  let cast ← load fun s => (s.vote proposalId voter).isSome
  demand (cast = false) "duplicate vote"
  let stored ← load fun s => s.proposal proposalId
  let proposal ← expect stored unwrapNone
  demand (proposal.executed = false) "proposal already executed"
  let counted ← expect (tally proposal support weight) "overflow"
  store (setProposal proposalId counted)
  store (setVote proposalId voter)

def executeStrategyProposal (proposalId : ℕ) : VaultM σ Unit := do
  let stored ← load fun s => s.proposal proposalId
  let proposal ← expect stored unwrapNone
  demand (proposal.executed = false) "proposal already executed"
  let threshold ← load fun s => s.daoThreshold.getD 1
  demand (threshold ≤ proposal.yesVotes) "quorum not reached"
  demand (proposal.noVotes < proposal.yesVotes) "proposal rejected"
  store fun s => { s with benjiStrategy := some proposal.strategy }
  store (setProposal proposalId { proposal with executed := true })

end Dao

section Shipments

/-- The scan of `insert_sorted_unique`: the rest of the list, whether the id has
been placed, and the output so far. Meeting the id returns the list as it was. -/
def insertScan (ids : List ℕ) (shipmentId : ℕ) : List ℕ → Bool → List ℕ → List ℕ
  | [], inserted, out => if inserted then out else out ++ [shipmentId]
  | current::rest, inserted, out =>
    if current = shipmentId then ids
    else if inserted = false ∧ shipmentId < current then
      insertScan ids shipmentId rest true (out ++ [shipmentId] ++ [current])
    else insertScan ids shipmentId rest inserted (out ++ [current])

def insertSortedUnique (ids : List ℕ) (shipmentId : ℕ) : List ℕ :=
  insertScan ids shipmentId ids false []

def removeId (ids : List ℕ) (target : ℕ) : List ℕ := ids.filter fun current => current ≠ target

def setShipment (id : ℕ) (status : ShipmentStatus) (s : Storage) : Storage :=
  { s with shipmentStatusOf := Function.update s.shipmentStatusOf id (some status) }

def setShipmentList (status : ShipmentStatus) (ids : List ℕ) (s : Storage) : Storage :=
  { s with shipmentByStatus := Function.update s.shipmentByStatus status (some ids) }

def addShipment (env : Env σ) (shipmentId : ℕ) (status : ShipmentStatus) : VaultM σ Unit := do
  let _ ← requireAdmin env
  let tracked ← load fun s => (s.shipmentStatusOf shipmentId).isSome
  demand (tracked = false) "shipment already exists"
  let ids ← load fun s => (s.shipmentByStatus status).getD []
  store (setShipmentList status (insertSortedUnique ids shipmentId))
  store (setShipment shipmentId status)

def updateShipmentStatus (env : Env σ) (shipmentId : ℕ) (newStatus : ShipmentStatus) :
    VaultM σ Unit := do
  let _ ← requireAdmin env
  let stored ← load fun s => s.shipmentStatusOf shipmentId
  let oldStatus ← expect stored unwrapNone
  if oldStatus = newStatus then pure ()
  else do
    let oldIds ← load fun s => (s.shipmentByStatus oldStatus).getD []
    let newIds ← load fun s => (s.shipmentByStatus newStatus).getD []
    store (setShipmentList oldStatus (removeId oldIds shipmentId))
    store (setShipmentList newStatus (insertSortedUnique newIds shipmentId))
    store (setShipment shipmentId newStatus)

def maxPageSize : ℕ := 50

structure ShipmentPage where
  shipmentIds : List ℕ
  nextCursor : Option ℕ
  deriving DecidableEq

/-- The scan of `index_after_cursor`: the rest of the list and the index it starts at. -/
def scanCursor (value : ℕ) : List ℕ → ℕ → ℕ
  | [], idx => idx
  | id::rest, idx => if value < id then idx else scanCursor value rest (idx+1)

def indexAfterCursor (ids : List ℕ) : Option ℕ → ℕ
  | none => 0
  | some value => scanCursor value ids 0

/-- The loop that fills a page: the ids from `idx` on, `idx`, and the page so far. -/
def fillPage (boundedSize : ℕ) : List ℕ → ℕ → List ℕ → List ℕ × ℕ
  | [], idx, pageIds => (pageIds,idx)
  | id::rest, idx, pageIds =>
    if pageIds.length < boundedSize then fillPage boundedSize rest (idx+1) (pageIds ++ [id])
    else (pageIds,idx)

def shipmentIdsByStatus (s : Storage) (status : ShipmentStatus) (cursor : Option ℕ)
    (pageSize : ℕ) : Except String ShipmentPage := do
  require (pageSize ≠ 0) "page_size must be > 0"
  let boundedSize := if maxPageSize < pageSize then maxPageSize else pageSize
  let ids := (s.shipmentByStatus status).getD []
  let startIdx := indexAfterCursor ids cursor
  let filled := fillPage boundedSize (ids.drop startIdx) startIdx []
  .ok ⟨filled.1,if filled.2 < ids.length then filled.1[filled.1.length-1]? else none⟩

end Shipments

section Outcomes

variable {env : Env σ} {l t : Ledger σ} {u : Unit} {n : ℕ}

theorem proposeEmergencyAction_ok {initiator : Address} {kind : EmergencyActionKind} {code : ℕ}
    {amount : Option ℤ} {hash : Option BytesN32} :
    (proposeEmergencyAction env initiator kind code amount hash).run l = .ok n t ↔
      env.auth initiator = true ∧ l.storage.emergencyApproverPrimary = some initiator ∧
      l.storage.emergencyProposalNonce.getD 0+1 < 2^32 ∧
      l.storage.emergencyProposalNonce.getD 0+1 = n ∧
      ⟨setEmergencyProposal n ⟨kind,code,amount,hash,initiator,false,false⟩
        { l.storage with emergencyProposalNonce := some n },l.chain,
        .event (.emergencyProposed n kind.code) :: l.log⟩ = t := by
  simp [proposeEmergencyAction,nextProposalId]
  aesop

/-- A proposal that the secondary approver may confirm. -/
structure Confirmable (env : Env σ) (s : Storage) (confirmer : Address) (proposalId : ℕ)
    (proposal : EmergencyProposal) : Prop where
  auth : env.auth confirmer = true
  secondary : s.emergencyApproverSecondary = some confirmer
  stored : s.emergencyProposal proposalId = some proposal
  pending : proposal.executed = false ∧ proposal.confirmed = false
  distinct : proposal.initiator ≠ confirmer

theorem confirmEmergencyAction_ok {confirmer : Address} {proposalId : ℕ}
    (h : (confirmEmergencyAction env confirmer proposalId).run l = .ok u t) :
    ∃ proposal m, Confirmable env l.storage confirmer proposalId proposal ∧
      (applyEmergency env proposal).run
        ⟨setEmergencyProposal proposalId { proposal with confirmed := true } l.storage,l.chain,
          l.log⟩ = .ok () m ∧
      t = ⟨setEmergencyProposal proposalId
          { proposal with confirmed := true, executed := true } m.storage,m.chain,
        .event (.emergencyExecuted proposalId proposal.kind.code) :: m.log⟩ := by
  simp [confirmEmergencyAction] at h
  obtain ⟨hauth,hsecondary,proposal,hstored,hexec,hconf,hne,_,m,happly,rfl⟩ := h
  exact ⟨proposal,m,⟨hauth,hsecondary,hstored,⟨hexec,hconf⟩,hne⟩,happly,rfl⟩

def checkpointed (id : ℕ) (s : Storage) : Storage :=
  { s with
    checkpointNonce := some id
    checkpointTotalShares := Function.update s.checkpointTotalShares id
      (some (getState s).totalShares)
    checkpointTotalAssets := Function.update s.checkpointTotalAssets id
      (some (getState s).totalAssets) }

theorem createCheckpoint_ok :
    (createCheckpoint env).run l = .ok n t ↔ ∃ admin, l.storage.proxy.admin = some admin ∧
      env.auth admin = true ∧ l.storage.checkpointNonce.getD 0+1 < 2^32 ∧
      l.storage.checkpointNonce.getD 0+1 = n ∧
      ⟨checkpointed n l.storage,l.chain,.event (.checkpoint n) :: l.log⟩ = t := by
  simp [createCheckpoint,checkpointed]
  aesop

def snapshotTaken (user : Address) (checkpoint : ℕ) (s : Storage) : Storage :=
  { s with
    userCheckpoint := Function.update s.userCheckpoint user (some checkpoint)
    userBalanceAt := Function.update s.userBalanceAt user
      (Function.update (s.userBalanceAt user) checkpoint (some (balance s user))) }

theorem snapshotUserBalance_ok {user : Address} :
    (snapshotUserBalance env user).run l = .ok u t ↔ ∃ checkpoint,
      env.auth user = true ∧ l.storage.checkpointNonce = some checkpoint ∧
      ⟨snapshotTaken user checkpoint l.storage,l.chain,l.log⟩ = t := by
  simp [snapshotUserBalance,snapshotTaken]

theorem createStrategyProposal_ok {proposer strategy : Address} :
    (createStrategyProposal env proposer strategy).run l = .ok n t ↔
      env.auth proposer = true ∧ l.storage.proposalNonce.getD 0+1 < 2^32 ∧
      l.storage.proposalNonce.getD 0+1 = n ∧
      ⟨setProposal n ⟨strategy,0,0,false⟩ { l.storage with proposalNonce := some n },l.chain,
        l.log⟩ = t := by
  simp [createStrategyProposal]
  aesop

theorem voteOnProposal_ok {voter : Address} {proposalId : ℕ} {support : Bool} {weight : ℤ} :
    (voteOnProposal env voter proposalId support weight).run l = .ok u t ↔ ∃ proposal counted,
      env.auth voter = true ∧ 0 < weight ∧ l.storage.vote proposalId voter = none ∧
      l.storage.proposal proposalId = some proposal ∧ proposal.executed = false ∧
      tally proposal support weight = some counted ∧
      ⟨setVote proposalId voter (setProposal proposalId counted l.storage),l.chain,l.log⟩ = t := by
  simp [voteOnProposal]

theorem executeStrategyProposal_ok {proposalId : ℕ} :
    (executeStrategyProposal proposalId).run l = .ok u t ↔ ∃ proposal,
      l.storage.proposal proposalId = some proposal ∧ proposal.executed = false ∧
      l.storage.daoThreshold.getD 1 ≤ proposal.yesVotes ∧
      proposal.noVotes < proposal.yesVotes ∧
      ⟨setProposal proposalId { proposal with executed := true }
        { l.storage with benjiStrategy := some proposal.strategy },l.chain,l.log⟩ = t := by
  simp [executeStrategyProposal]

/-- The storage after a new shipment has been indexed. -/
def shipmentAdded (id : ℕ) (status : ShipmentStatus) (s : Storage) : Storage :=
  setShipment id status
    (setShipmentList status (insertSortedUnique ((s.shipmentByStatus status).getD []) id) s)

theorem addShipment_ok {shipmentId : ℕ} {status : ShipmentStatus} :
    (addShipment env shipmentId status).run l = .ok u t ↔ ∃ admin,
      l.storage.proxy.admin = some admin ∧ env.auth admin = true ∧
      l.storage.shipmentStatusOf shipmentId = none ∧
      ⟨shipmentAdded shipmentId status l.storage,l.chain,l.log⟩ = t := by
  simp [addShipment,shipmentAdded]

def shipmentMoved (id : ℕ) (oldStatus newStatus : ShipmentStatus) (s : Storage) : Storage :=
  setShipment id newStatus
    (setShipmentList newStatus (insertSortedUnique ((s.shipmentByStatus newStatus).getD []) id)
      (setShipmentList oldStatus (removeId ((s.shipmentByStatus oldStatus).getD []) id) s))

theorem updateShipmentStatus_ok {shipmentId : ℕ} {newStatus : ShipmentStatus} :
    (updateShipmentStatus env shipmentId newStatus).run l = .ok u t ↔ ∃ admin oldStatus,
      l.storage.proxy.admin = some admin ∧ env.auth admin = true ∧
      l.storage.shipmentStatusOf shipmentId = some oldStatus ∧
      (if oldStatus = newStatus then l
        else ⟨shipmentMoved shipmentId oldStatus newStatus l.storage,l.chain,l.log⟩) = t := by
  simp [updateShipmentStatus,shipmentMoved]
  constructor
  · rintro ⟨admin,hadmin,hauth,old,hold,⟨hsame,rfl⟩ | ⟨hne,rfl⟩⟩
    · exact ⟨admin,hadmin,hauth,old,hold,if_pos hsame⟩
    · exact ⟨admin,hadmin,hauth,old,hold,if_neg hne⟩
  · rintro ⟨admin,hadmin,hauth,old,hold,h⟩
    refine ⟨admin,hadmin,hauth,old,hold,?_⟩
    split_ifs at h with hsame
    · exact Or.inl ⟨hsame,h⟩
    · exact Or.inr ⟨hsame,h⟩

theorem createCheckpoint_quiet (h : (createCheckpoint env).run l = .ok n t) :
    Quiet env l t := by
  obtain ⟨_,_,_,_,_,rfl⟩ := createCheckpoint_ok.mp h
  exact Quiet.of_event (by rfl) (by rfl) trivial

theorem snapshotUserBalance_quiet {user : Address}
    (h : (snapshotUserBalance env user).run l = .ok u t) :
    Quiet env l t := by
  obtain ⟨_,_,_,rfl⟩ := snapshotUserBalance_ok.mp h
  exact Quiet.of_storage (by rfl) (by rfl) isNotice_nil

theorem createStrategyProposal_quiet {proposer strategy : Address}
    (h : (createStrategyProposal env proposer strategy).run l = .ok n t) : Quiet env l t := by
  obtain ⟨_,_,_,rfl⟩ := createStrategyProposal_ok.mp h
  exact Quiet.of_storage (by rfl) (by rfl) isNotice_nil

theorem voteOnProposal_quiet {voter : Address} {proposalId : ℕ} {support : Bool} {weight : ℤ}
    (h : (voteOnProposal env voter proposalId support weight).run l = .ok u t) :
    Quiet env l t := by
  obtain ⟨_,_,_,_,_,_,_,_,rfl⟩ := voteOnProposal_ok.mp h
  exact Quiet.of_storage (by rfl) (by rfl) isNotice_nil

theorem executeStrategyProposal_quiet {proposalId : ℕ}
    (h : (executeStrategyProposal proposalId).run l = .ok u t) : Quiet env l t := by
  obtain ⟨_,_,_,_,_,rfl⟩ := executeStrategyProposal_ok.mp h
  exact Quiet.of_storage (by rfl) (by rfl) isNotice_nil

@[simp] theorem setShipment_frame (id : ℕ) (status : ShipmentStatus) (s : Storage) :
    accounts (setShipment id status s) = accounts s ∧
      storageVersion (setShipment id status s) = storageVersion s := ⟨rfl,rfl⟩

@[simp] theorem setShipmentList_frame (status : ShipmentStatus) (ids : List ℕ) (s : Storage) :
    accounts (setShipmentList status ids s) = accounts s ∧
      storageVersion (setShipmentList status ids s) = storageVersion s := ⟨rfl,rfl⟩

theorem addShipment_quiet {shipmentId : ℕ} {status : ShipmentStatus}
    (h : (addShipment env shipmentId status).run l = .ok u t) :
    Quiet env l t := by
  obtain ⟨_,_,_,_,rfl⟩ := addShipment_ok.mp h
  exact Quiet.of_storage (by simp [shipmentAdded]) (by simp [shipmentAdded]) isNotice_nil

theorem updateShipmentStatus_quiet {shipmentId : ℕ} {newStatus : ShipmentStatus}
    (h : (updateShipmentStatus env shipmentId newStatus).run l = .ok u t) :
    Quiet env l t := by
  obtain ⟨_,_,_,_,_,h⟩ := updateShipmentStatus_ok.mp h
  split_ifs at h
  · subst h
    exact Quiet.of_storage rfl rfl isNotice_nil
  · subst h
    exact Quiet.of_storage (by simp [shipmentMoved]) (by simp [shipmentMoved]) isNotice_nil

end Outcomes

end YieldVault
