import YieldVault.ShipmentIndex

/-! Clients of the shipment index. A page is read by two loops over a bucket, one that
finds the cursor and one that fills the page; a client asks for page after page while
the index goes on changing. -/
namespace YieldVault

open FixedWidth Contract

variable {σ : Type} {host : Host σ}

section Loops

theorem scanCursor_drop {ids : List ℕ} (h : ids.SortedLT) (value idx : ℕ) :
    ∃ n ≤ ids.length, scanCursor value ids idx = idx+n ∧
      ids.drop n = Paging.after (some value) ids := by
  induction ids generalizing idx with
  | nil => exact ⟨0,le_rfl,rfl,rfl⟩
  | cons id rest ih =>
    have hpw := List.pairwise_cons.mp h.pairwise
    by_cases hlt : value < id
    · refine ⟨0,Nat.zero_le _,if_pos hlt,?_⟩
      have hall : ∀ x ∈ id :: rest, value < x := by
        intro x hx
        rcases List.mem_cons.mp hx with rfl | hx
        · exact hlt
        · exact hlt.trans (hpw.1 x hx)
      exact (List.filter_eq_self.mpr fun x hx => by simpa using hall x hx).symm
    · obtain ⟨n,hn,hscan,hdrop⟩ := ih hpw.2.sortedLT (idx+1)
      refine ⟨n+1,Nat.succ_le_succ hn,?_,?_⟩
      · rw [scanCursor,if_neg hlt,hscan]
        omega
      · rw [List.drop_succ_cons,hdrop]
        simp [Paging.after,hlt]

theorem indexAfterCursor_drop {ids : List ℕ} (h : ids.SortedLT) (cursor : Option ℕ) :
    indexAfterCursor ids cursor ≤ ids.length ∧
      ids.drop (indexAfterCursor ids cursor) = Paging.after cursor ids := by
  cases cursor with
  | none => simp [indexAfterCursor,Paging.after]
  | some value =>
    obtain ⟨n,hn,hscan,hdrop⟩ := scanCursor_drop h value 0
    rw [indexAfterCursor,hscan,Nat.zero_add]
    exact ⟨hn,hdrop⟩

theorem fillPage_eq (boundedSize : ℕ) (rest : List ℕ) (idx : ℕ) (pageIds : List ℕ) :
    fillPage boundedSize rest idx pageIds =
      (pageIds ++ rest.take (boundedSize-pageIds.length),
        idx+(rest.take (boundedSize-pageIds.length)).length) := by
  induction rest generalizing idx pageIds with
  | nil => simp [fillPage]
  | cons id rest ih =>
    by_cases hlt : pageIds.length < boundedSize
    · obtain ⟨k,hk⟩ : ∃ k, boundedSize-pageIds.length = k+1 :=
        Nat.exists_eq_succ_of_ne_zero (by omega)
      have hk' : boundedSize-(pageIds ++ [id]).length = k := by
        rw [List.length_append,List.length_singleton]
        omega
      rw [fillPage,if_pos hlt,ih,hk',hk]
      simp [Nat.add_comm,Nat.add_left_comm]
    · have h0 : boundedSize-pageIds.length = 0 := by omega
      simp [fillPage,hlt,h0]

end Loops

/-- A request gets the page of the bucket after its cursor, and the cursor for the next one. -/
theorem shipmentIdsByStatus_eq {s : Storage} {status : ShipmentStatus}
    (h : (bucket s status).SortedLT) (cursor : Option ℕ) {pageSize : ℕ} (hp : 0 < pageSize) :
    shipmentIdsByStatus s status cursor pageSize =
      .ok ⟨Paging.page cursor (min pageSize maxPageSize) (bucket s status),
        Paging.next cursor (min pageSize maxPageSize) (bucket s status)⟩ := by
  have hsize : (if maxPageSize < pageSize then maxPageSize else pageSize) =
      min pageSize maxPageSize := by
    split_ifs <;> omega
  obtain ⟨hle,hdrop⟩ := indexAfterCursor_drop h cursor
  have hlen := congrArg List.length hdrop
  rw [List.length_drop] at hlen
  have hmore : indexAfterCursor (bucket s status) cursor +
      ((Paging.after cursor (bucket s status)).take (min pageSize maxPageSize)).length <
        (bucket s status).length ↔
      min pageSize maxPageSize < (Paging.after cursor (bucket s status)).length := by
    rw [List.length_take]
    omega
  simp only [shipmentIdsByStatus,require,if_pos hp.ne',hsize]
  change Except.ok _ = _
  simp only [← bucket.eq_def,fillPage_eq,hdrop,List.length_nil,Nat.sub_zero,List.nil_append,
    hmore,Paging.next,Paging.page,List.getLast?_eq_getElem?]

section Clients

/-- What happens before a client's next request, and the size of the page it asks for. -/
structure PageRequest (host : Host σ) where
  before : List (Action host)
  pageSize : ℕ
  pageSize_pos : 0 < pageSize

/-- A client follows the cursor until there is none; `none` if the requests run out first. -/
def follow (status : ShipmentStatus) :
    Option ℕ → Ledger σ → List (PageRequest host) → Option (List ShipmentPage)
  | _, _, [] => none
  | cursor, l, request::requests =>
    let l' := Runs.run (step host) request.before l
    match shipmentIdsByStatus l'.storage status cursor request.pageSize with
    | .error _ => none
    | .ok page => match page.nextCursor with
      | none => some [page]
      | some id => (follow status (some id) l' requests).map (page :: ·)

def ledgersAt : Ledger σ → List (PageRequest host) → List (Ledger σ)
  | _, [] => []
  | l, request::requests =>
    let l' := Runs.run (step host) request.before l
    l' :: ledgersAt l' requests

def asked (status : ShipmentStatus) (l : Ledger σ) (requests : List (PageRequest host)) :
    List (List ℕ × ℕ) :=
  (ledgersAt l requests).zipWith
    (fun m request => (bucket m.storage status,min request.pageSize maxPageSize)) requests

variable {status : ShipmentStatus} {cursor : Option ℕ} {l : Ledger σ}
  {requests : List (PageRequest host)} {pages : List ShipmentPage}

theorem asked_cons (request : PageRequest host) (l : Ledger σ) :
    asked status l (request :: requests) =
      (bucket (Runs.run (step host) request.before l).storage status,
        min request.pageSize maxPageSize) ::
        asked status (Runs.run (step host) request.before l) requests := rfl

@[simp] theorem asked_length : (asked status l requests).length = requests.length := by
  induction requests generalizing l with
  | nil => rfl
  | cons request requests ih => rw [asked_cons,List.length_cons,ih,List.length_cons]

theorem asked_mem {n : ℕ} {r : List ℕ × ℕ} (hr : r ∈ (asked status l requests).take n) :
    ∃ m ∈ (ledgersAt l requests).take n, ∃ request ∈ requests,
      r = (bucket m.storage status,min request.pageSize maxPageSize) := by
  induction requests generalizing l n with
  | nil => simp [asked] at hr
  | cons request requests ih =>
    cases n with
    | zero => simp at hr
    | succ n =>
      rw [asked_cons,List.take_succ_cons,List.mem_cons] at hr
      rw [ledgersAt,List.take_succ_cons]
      rcases hr with rfl | hr
      · exact ⟨_,List.mem_cons_self,request,List.mem_cons_self,rfl⟩
      · obtain ⟨m,hm,request',hmem,hr⟩ := ih hr
        exact ⟨m,List.mem_cons_of_mem _ hm,request',List.mem_cons_of_mem _ hmem,hr⟩

theorem ledgersAt_indexed (h : Indexed l.storage) {m : Ledger σ} (hm : m ∈ ledgersAt l requests) :
    Indexed m.storage := by
  induction requests generalizing l with
  | nil => simp [ledgersAt] at hm
  | cons request requests ih =>
    have hnext := run_indexed request.before h
    rcases List.mem_cons.mp hm with rfl | hm
    · exact hnext
    · exact ih hnext hm

/-- Every request meets an ascending bucket, whatever happened before it, and asks for
something. -/
theorem asked_proper (h : Indexed l.storage) {n : ℕ} {r : List ℕ × ℕ}
    (hr : r ∈ (asked status l requests).take n) : r.1.SortedLT ∧ 0 < r.2 := by
  obtain ⟨m,hm,request,-,rfl⟩ := asked_mem hr
  have hindexed := ledgersAt_indexed h (List.mem_of_mem_take hm)
  exact ⟨hindexed.ascending status,lt_min request.pageSize_pos (by decide)⟩

theorem follow_cons (h : Indexed l.storage) (request : PageRequest host) :
    follow status cursor l (request :: requests) =
      let l' := Runs.run (step host) request.before l
      let size := min request.pageSize maxPageSize
      match Paging.next cursor size (bucket l'.storage status) with
      | none => some [⟨Paging.page cursor size (bucket l'.storage status),none⟩]
      | some id => (follow status (some id) l' requests).map
          (⟨Paging.page cursor size (bucket l'.storage status),some id⟩ :: ·) := by
  have hsorted := (run_indexed request.before h).ascending status
  simp only [follow,shipmentIdsByStatus_eq hsorted cursor request.pageSize_pos]
  cases Paging.next cursor (min request.pageSize maxPageSize) _ <;> rfl

/-- A client that reaches the end has traversed the buckets it met. -/
theorem follow_traversal (h : Indexed l.storage)
    (hf : follow status cursor l requests = some pages) :
    Paging.Traversal cursor ((asked status l requests).take pages.length)
      (pages.map ShipmentPage.shipmentIds) := by
  induction requests generalizing cursor l pages with
  | nil => simp [follow] at hf
  | cons request requests ih =>
    have hnext := run_indexed request.before h
    rw [follow_cons h,asked_cons] at *
    cases hcursor : Paging.next cursor (min request.pageSize maxPageSize)
        (bucket (Runs.run (step host) request.before l).storage status) with
    | none =>
      simp only [hcursor,Option.some.injEq] at hf
      rw [← hf]
      exact .last hcursor
    | some id =>
      simp only [hcursor,Option.map_eq_some_iff] at hf
      obtain ⟨rest,hrest,rfl⟩ := hf
      exact .more hcursor (ih hnext hrest)

theorem follow_of_traversal (h : Indexed l.storage) {n : ℕ} {lists : List (List ℕ)}
    (ht : Paging.Traversal cursor ((asked status l requests).take n) lists) :
    ∃ pages, follow status cursor l requests = some pages := by
  induction requests generalizing cursor l n lists with
  | nil =>
    simp only [asked,ledgersAt,List.zipWith_nil_left,List.take_nil] at ht
    cases ht
  | cons request requests ih =>
    have hnext := run_indexed request.before h
    rw [follow_cons h]
    cases n with
    | zero => cases ht
    | succ n =>
      rw [asked_cons,List.take_succ_cons] at ht
      generalize hlater : (asked status _ requests).take n = later at ht
      cases ht with
      | last hnone =>
        simp only [hnone]
        exact ⟨_,rfl⟩
      | more hsome rest =>
        rw [← hlater] at rest
        obtain ⟨pages,hpages⟩ := ih hnext rest
        simp only [hsome,hpages]
        exact ⟨_,rfl⟩

end Clients

/-- A client that starts without a cursor and follows it to the end receives ids in strictly
ascending order, and every id that was in the bucket at each of its requests, whatever was
called in between. While the bucket stays the same the client receives exactly the bucket,
and reaches its end after at most one request more than the number of full pages in it. -/
theorem shipmentPages_complete (host : Host σ) (chain : σ) (acts : List (Action host))
    (status : ShipmentStatus) (requests : List (PageRequest host)) :
    let l := runFrom host chain acts
    let received := fun pages : List ShipmentPage => (pages.map ShipmentPage.shipmentIds).flatten
    (∀ pages, follow status none l requests = some pages →
      (received pages).SortedLT ∧ (received pages).Nodup ∧
      ∀ id, (∀ m ∈ (ledgersAt l requests).take pages.length, id ∈ bucket m.storage status) →
        id ∈ received pages) ∧
    ∀ k, 0 < k → (∀ request ∈ requests, k ≤ min request.pageSize maxPageSize) →
      (∀ m ∈ ledgersAt l requests, bucket m.storage status = bucket l.storage status) →
      (∀ pages, follow status none l requests = some pages →
        received pages = bucket l.storage status ∧
          pages.length ≤ (bucket l.storage status).length / k+1) ∧
      ((bucket l.storage status).length / k+1 ≤ requests.length →
        ∃ pages, follow status none l requests = some pages) := by
  intro l received
  have hl : Indexed l.storage := runFrom_indexed acts
  have hstart : Paging.after none (bucket l.storage status) = bucket l.storage status := by
    simp [Paging.after]
  constructor
  · intro pages hf
    have ht := follow_traversal hl hf
    have hsorted : (received pages).SortedLT := ht.sortedLT fun r hr => (asked_proper hl hr).1
    refine ⟨hsorted,hsorted.nodup,fun id hid => ?_⟩
    refine ht.complete (fun r hr => asked_proper hl hr) (fun r hr => ?_) (by simp)
    obtain ⟨m,hm,request,-,rfl⟩ := asked_mem hr
    exact hid m hm
  · intro k hk hsize hsame
    have hasked : ∀ {n r}, r ∈ (asked status l requests).take n →
        r.1 = bucket l.storage status ∧ k ≤ r.2 := by
      intro n r hr
      obtain ⟨m,hm,request,hrequest,rfl⟩ := asked_mem hr
      exact ⟨hsame m (List.mem_of_mem_take hm),hsize request hrequest⟩
    constructor
    · intro pages hf
      have ht := follow_traversal hl hf
      have hlength := ht.length_le (hl.ascending status) hk fun r hr => hasked hr
      have hflatten := ht.flatten_eq (hl.ascending status) fun r hr =>
        ⟨(hasked hr).1,(asked_proper hl hr).2⟩
      rw [hstart] at hlength hflatten
      rw [List.length_map] at hlength
      exact ⟨hflatten,hlength⟩
    · intro hmany
      have hall : ∀ r ∈ asked status l requests, r.1 = bucket l.storage status ∧ k ≤ r.2 := by
        intro r hr
        rw [← List.take_length (l := asked status l requests)] at hr
        exact hasked hr
      obtain ⟨n,lists,ht⟩ :
          ∃ n lists, Paging.Traversal none ((asked status l requests).take n) lists :=
        Paging.exists_traversal (hl.ascending status) hk hall (by rwa [hstart,asked_length])
      exact follow_of_traversal hl ht

end YieldVault
