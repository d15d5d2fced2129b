import YieldVault.StorageParts
import YieldVault.Paging

/-! The index of tracked shipments. Each status has a strictly ascending bucket of ids,
and the buckets agree with the status stored for each id. -/
namespace YieldVault

open FixedWidth Contract

variable {σ : Type} {host : Host σ} {env : Env σ} {chain : σ} {l t : Ledger σ}

def bucket (s : Storage) (status : ShipmentStatus) : List ℕ := (s.shipmentByStatus status).getD []

section Lists

/-- The insertion loop from any point on: an id that is met again gives the list back,
and otherwise the rest is copied with the id in its place. -/
theorem insertScan_eq (ids : List ℕ) (id : ℕ) (rest : List ℕ) (inserted : Bool) (out : List ℕ) :
    insertScan ids id rest inserted out =
      if id ∈ rest then ids
      else out ++ (if inserted then rest else rest.orderedInsert (· ≤ ·) id) := by
  induction rest generalizing inserted out with
  | nil => cases inserted <;> simp [insertScan]
  | cons current rest ih =>
    by_cases hsame : current = id
    · simp [insertScan,hsame]
    · by_cases hlt : id < current
      · cases inserted with
        | false => simp [insertScan,hsame,Ne.symm hsame,hlt,hlt.le,ih]
        | true => simp [insertScan,hsame,Ne.symm hsame,ih]
      · have hle : ¬ id ≤ current := fun h => hlt (lt_of_le_of_ne h (Ne.symm hsame))
        cases inserted with
        | false => simp [insertScan,hsame,Ne.symm hsame,hlt,hle,ih]
        | true => simp [insertScan,hsame,Ne.symm hsame,ih]

theorem insertSortedUnique_eq (ids : List ℕ) (id : ℕ) :
    insertSortedUnique ids id = Paging.insertNew id ids := by
  rw [insertSortedUnique,insertScan_eq,Paging.insertNew]
  simp

theorem removeId_sortedLT {ids : List ℕ} (h : ids.SortedLT) (id : ℕ) :
    (removeId ids id).SortedLT :=
  (h.pairwise.filter _).sortedLT

theorem mem_removeId {ids : List ℕ} {id other : ℕ} :
    other ∈ removeId ids id ↔ other ∈ ids ∧ other ≠ id := by
  simp [removeId]

end Lists

section Steps

inductive IndexStep (call : Call) (s s' : Storage) : Prop
  | kept (buckets : bucket s' = bucket s) (statuses : s'.shipmentStatusOf = s.shipmentStatusOf)
  | added (id : ℕ) (status : ShipmentStatus) (adds : call = .addShipment id status)
      (fresh : s.shipmentStatusOf id = none)
      (buckets : bucket s' =
        Function.update (bucket s) status (Paging.insertNew id (bucket s status)))
      (statuses : s'.shipmentStatusOf = Function.update s.shipmentStatusOf id (some status))
  | moved (id : ℕ) (oldStatus newStatus : ShipmentStatus)
      (moves : call = .updateShipmentStatus id newStatus) (changes : oldStatus ≠ newStatus)
      (stored : s.shipmentStatusOf id = some oldStatus)
      (buckets : bucket s' =
        Function.update (Function.update (bucket s) oldStatus (removeId (bucket s oldStatus) id))
          newStatus (Paging.insertNew id (bucket s newStatus)))
      (statuses : s'.shipmentStatusOf = Function.update s.shipmentStatusOf id (some newStatus))

theorem bucket_setShipmentList (s : Storage) (status : ShipmentStatus) (ids : List ℕ) :
    bucket (setShipmentList status ids s) = Function.update (bucket s) status ids :=
  getD_update _ _ _ _

theorem dispatch_index {call : Call} {v : Value} (h : (dispatch env call).run l = .ok v t) :
    IndexStep call l.storage t.storage := by
  by_cases hw : Part.shipments ∈ call.writes
  · cases call with
    | addShipment id status =>
      obtain ⟨_,h,-⟩ := map_eq_ok.mp h
      obtain ⟨_,-,-,hfresh,rfl⟩ := addShipment_ok.mp h
      refine .added id status rfl hfresh ?_ rfl
      rw [← insertSortedUnique_eq]
      exact bucket_setShipmentList _ _ _
    | updateShipmentStatus id newStatus =>
      obtain ⟨_,h,-⟩ := map_eq_ok.mp h
      obtain ⟨_,oldStatus,-,-,hstored,h⟩ := updateShipmentStatus_ok.mp h
      split_ifs at h with hsame
      · subst h
        exact .kept rfl rfl
      · subst h
        refine .moved id oldStatus newStatus rfl hsame hstored ?_ rfl
        rw [← insertSortedUnique_eq,← bucket_setShipmentList]
        exact bucket_setShipmentList _ _ _
    | setting setting => cases setting <;> simp [Call.writes] at hw
    | _ => simp [Call.writes] at hw
  · have hpart := dispatch_part hw h
    constructor
    · exact read_of_part (f := bucket) (fun _ => rfl) hpart
    · exact read_of_part (f := Storage.shipmentStatusOf) (fun _ => rfl) hpart

end Steps

/-- The buckets are ascending and agree with the status stored for each id. -/
structure Indexed (s : Storage) : Prop where
  ascending : ∀ status, (bucket s status).SortedLT
  member : ∀ id status, id ∈ bucket s status ↔ s.shipmentStatusOf id = some status

theorem indexed_empty : Indexed {} :=
  ⟨fun _ => List.Pairwise.nil.sortedLT,fun id status => by simp [bucket]⟩

theorem IndexStep.indexed {call : Call} {s s' : Storage} (hs : IndexStep call s s')
    (h : Indexed s) : Indexed s' := by
  cases hs with
  | kept buckets statuses =>
    refine ⟨fun status => ?_,fun id status => ?_⟩
    · rw [buckets]
      exact h.ascending status
    · rw [buckets,statuses]
      exact h.member id status
  | added id status adds fresh buckets statuses =>
    refine ⟨fun status' => ?_,fun other status' => ?_⟩
    · rw [buckets]
      by_cases hst : status' = status
      · subst hst
        rw [Function.update_self]
        exact Paging.insertNew_sortedLT (h.ascending _)
      · rw [Function.update_of_ne hst]
        exact h.ascending _
    · have hno : id ∉ bucket s status' := by simp [h.member,fresh]
      have hother := h.member other status'
      rw [buckets,statuses]
      by_cases hst : status' = status <;> by_cases hid : other = id <;>
        simp_all [Function.update,Paging.mem_insertNew,eq_comm]
  | moved id oldStatus newStatus moves changes stored buckets statuses =>
    refine ⟨fun status' => ?_,fun other status' => ?_⟩
    · rw [buckets]
      by_cases hnew : status' = newStatus
      · subst hnew
        rw [Function.update_self]
        exact Paging.insertNew_sortedLT (h.ascending _)
      · rw [Function.update_of_ne hnew]
        by_cases hold : status' = oldStatus
        · subst hold
          rw [Function.update_self]
          exact removeId_sortedLT (h.ascending _) id
        · rw [Function.update_of_ne hold]
          exact h.ascending _
    · have hin : id ∈ bucket s status' ↔ oldStatus = status' := by simp [h.member,stored]
      have hother := h.member other status'
      rw [buckets,statuses]
      by_cases hnew : status' = newStatus <;> by_cases hold : status' = oldStatus <;>
        by_cases hid : other = id <;>
          simp_all [Function.update,Paging.mem_insertNew,mem_removeId,eq_comm]

theorem run_indexed (acts : List (Action host)) (h : Indexed l.storage) :
    Indexed (Runs.run (step host) acts l).storage :=
  run_storage (fun _ _ _ _ hv hl => (dispatch_index hv).indexed hl) acts h

theorem runFrom_indexed (acts : List (Action host)) :
    Indexed (runFrom host chain acts).storage := run_indexed acts indexed_empty

theorem IndexStep.tracked {call : Call} {s s' : Storage} (hs : IndexStep call s s') {id : ℕ}
    (h : s.shipmentStatusOf id ≠ none) : s'.shipmentStatusOf id ≠ none := by
  cases hs with
  | kept buckets statuses => rwa [statuses]
  | added id' status adds fresh buckets statuses =>
    have hid : id ≠ id' := fun he => h (he ▸ fresh)
    rwa [statuses,Function.update_of_ne hid]
  | moved id' oldStatus newStatus moves changes stored buckets statuses =>
    rw [statuses]
    by_cases hid : id = id' <;> simp [Function.update,hid,h]

theorem run_tracked (acts : List (Action host)) {id : ℕ}
    (h : l.storage.shipmentStatusOf id ≠ none) :
    (Runs.run (step host) acts l).storage.shipmentStatusOf id ≠ none := by
  let tracked : Storage → Prop := fun s => s.shipmentStatusOf id ≠ none
  have hrun : tracked (Runs.run (step host) acts l).storage :=
    run_storage (fun _ _ _ _ hv hl => (dispatch_index hv).tracked hl) acts h
  exact hrun

theorem IndexStep.others {call : Call} {s s' : Storage} (hs : IndexStep call s s') {id other : ℕ}
    (hcall : (∃ status, call = .addShipment id status) ∨
      ∃ status, call = .updateShipmentStatus id status) (hne : other ≠ id) :
    s'.shipmentStatusOf other = s.shipmentStatusOf other := by
  cases hs with
  | kept buckets statuses => rw [statuses]
  | added id' status adds fresh buckets statuses =>
    have hid : id' = id := by
      rcases hcall with ⟨_,rfl⟩ | ⟨_,rfl⟩
      · injection adds with hid _
        exact hid.symm
      · cases adds
    rw [statuses,hid,Function.update_of_ne hne]
  | moved id' oldStatus newStatus moves changes stored buckets statuses =>
    have hid : id' = id := by
      rcases hcall with ⟨_,rfl⟩ | ⟨_,rfl⟩
      · cases moves
      · injection moves with hid _
        exact hid.symm
    rw [statuses,hid,Function.update_of_ne hne]

/-- The index of shipments is sound in every state of every run: the buckets are strictly
ascending and hold exactly what the stored statuses say, no shipment is in two of them, none
is ever lost, and a call about one shipment leaves all others where they were. -/
theorem shipmentIndex_sound (host : Host σ) (chain : σ) (acts rest : List (Action host)) :
    let s := (runFrom host chain acts).storage
    let later := (runFrom host chain (acts ++ rest)).storage
    (∀ status, (bucket s status).SortedLT) ∧
    (∀ id status, id ∈ bucket s status ↔ s.shipmentStatusOf id = some status) ∧
    (∀ id status status', id ∈ bucket s status → id ∈ bucket s status' → status = status') ∧
    (∀ id status, id ∈ bucket s status → ∃ status', id ∈ bucket later status') ∧
    ∀ (inv : Invocation host.vault) id other status,
      ((∃ status', inv.call = .addShipment id status') ∨
        ∃ status', inv.call = .updateShipmentStatus id status') → other ≠ id →
      (other ∈ bucket (invoke inv (runFrom host chain acts)).storage status ↔
        other ∈ bucket s status) := by
  intro s later
  have hs : Indexed s := runFrom_indexed acts
  have hlater : Indexed later := runFrom_indexed (acts ++ rest)
  refine ⟨hs.ascending,hs.member,?_,?_,?_⟩
  · intro id status status' h h'
    have h1 := (hs.member id status).mp h
    have h2 := (hs.member id status').mp h'
    exact Option.some.inj (h1.symm.trans h2)
  · intro id status h
    have htracked : s.shipmentStatusOf id ≠ none := by simp [(hs.member id status).mp h]
    have hend : later.shipmentStatusOf id ≠ none := by
      have h1 := run_tracked rest htracked
      rwa [runFrom,← Runs.run_append] at h1
    obtain ⟨status',hstatus'⟩ := Option.ne_none_iff_exists'.mp hend
    exact ⟨status',(hlater.member id status').mpr hstatus'⟩
  · intro inv id other status hcall hne
    rcases invoke_cases inv (runFrom host chain acts) with ⟨v,hv⟩ | hsame
    · have hstep := dispatch_index hv
      rw [(hstep.indexed hs).member,hs.member,hstep.others hcall hne]
    · rw [hsame]

end YieldVault
