import Mathlib.Data.List.Sort
import Mathlib.Data.Set.Card

/-! Reading a strictly ascending list page by page. A client asks for the next few
elements after a cursor and gets the last of them as the new cursor; between two
requests the list may change in any way that keeps it ascending. -/
namespace Paging

variable {α : Type*} [LinearOrder α]

section Insertion

def insertNew (a : α) (l : List α) : List α := if a ∈ l then l else l.orderedInsert (· ≤ ·) a

theorem mem_insertNew {a b : α} {l : List α} : b ∈ insertNew a l ↔ b = a ∨ b ∈ l := by
  unfold insertNew
  split_ifs with h
  · constructor
    · exact Or.inr
    · rintro (rfl | hb)
      · exact h
      · exact hb
  · exact List.mem_orderedInsert (· ≤ ·)

theorem insertNew_sortedLT {a : α} {l : List α} (h : l.SortedLT) : (insertNew a l).SortedLT := by
  unfold insertNew
  split_ifs with ha
  · exact h
  · have hle : (l.orderedInsert (· ≤ ·) a).SortedLE :=
      (List.Pairwise.orderedInsert a l h.sortedLE.pairwise).sortedLE
    have hnodup : (l.orderedInsert (· ≤ ·) a).Nodup :=
      (List.perm_orderedInsert (· ≤ ·) a l).nodup_iff.mpr (List.nodup_cons.mpr ⟨ha,h.nodup⟩)
    exact hle.sortedLT_of_nodup hnodup

end Insertion

section Pages

def after (cursor : Option α) (l : List α) : List α := l.filter fun x => ∀ c ∈ cursor, c < x

def page (cursor : Option α) (size : ℕ) (l : List α) : List α := (after cursor l).take size

/-- The last element of a page that is not the last page. -/
def next (cursor : Option α) (size : ℕ) (l : List α) : Option α :=
  if size < (after cursor l).length then (page cursor size l).getLast? else none

variable {cursor : Option α} {c x : α} {size : ℕ} {l : List α}

@[simp] theorem mem_after : x ∈ after cursor l ↔ x ∈ l ∧ ∀ c ∈ cursor, c < x := by
  simp [after]

theorem after_sortedLT (h : l.SortedLT) : (after cursor l).SortedLT :=
  (h.pairwise.filter _).sortedLT

theorem page_sublist : (page cursor size l).Sublist (after cursor l) := List.take_sublist _ _

theorem mem_page (hx : x ∈ page cursor size l) : x ∈ l ∧ ∀ c ∈ cursor, c < x :=
  mem_after.mp (page_sublist.mem hx)

theorem page_sortedLT (h : l.SortedLT) : (page cursor size l).SortedLT :=
  ((after_sortedLT h).pairwise.sublist page_sublist).sortedLT

theorem page_of_next_none (hs : 0 < size) (h : next cursor size l = none) :
    page cursor size l = after cursor l := by
  unfold next at h
  split_ifs at h with hlt
  · rw [List.getLast?_eq_none_iff] at h
    have h0 := congrArg List.length h
    simp only [page,List.length_take,List.length_nil] at h0
    omega
  · exact List.take_of_length_le (not_lt.mp hlt)

/-- The new cursor is the last element of a full page. -/
theorem page_of_next_some (h : next cursor size l = some c) :
    (page cursor size l).length = size ∧ ∃ init, page cursor size l = init ++ [c] := by
  unfold next at h
  split_ifs at h with hlt
  refine ⟨?_,List.getLast?_eq_some_iff.mp h⟩
  simp only [page,List.length_take]
  omega

theorem mem_page_of_next_some (h : next cursor size l = some c) : c ∈ page cursor size l := by
  obtain ⟨init,hinit⟩ := (page_of_next_some h).2
  rw [hinit]
  exact List.mem_append_right _ (List.mem_singleton_self _)

/-- What stands behind the cursor in the list is what comes after it. -/
theorem after_split {before behind : List α} (h : (before ++ c :: behind).SortedLT) :
    after (some c) (before ++ c :: behind) = behind := by
  have hsorted := h.pairwise
  rw [List.pairwise_append,List.pairwise_cons] at hsorted
  obtain ⟨-,⟨hbehind,-⟩,hbefore⟩ := hsorted
  have hfirst : before.filter (fun x => decide (∀ d ∈ some c, d < x)) = [] := by
    refine List.filter_eq_nil_iff.mpr fun x hx => ?_
    simpa using (hbefore x hx c List.mem_cons_self).le
  have hlast : behind.filter (fun x => decide (∀ d ∈ some c, d < x)) = behind :=
    List.filter_eq_self.mpr fun x hx => by simpa using hbehind x hx
  rw [after,List.filter_append,hfirst,List.nil_append,List.filter_cons_of_neg (by simp),hlast]

theorem drop_succ_eq_after (hl : l.SortedLT) {i : ℕ} (hi : l[i]? = some c) :
    l.drop (i+1) = after (some c) l := by
  obtain ⟨hlt,hget⟩ := List.getElem?_eq_some_iff.mp hi
  have hsplit : l.take i ++ c :: l.drop (i+1) = l := by simp [← hget]
  have hafter := after_split (hsplit.symm ▸ hl)
  rwa [hsplit,eq_comm] at hafter

theorem page_append_after (hl : l.SortedLT) (h : next cursor size l = some c) :
    after cursor l = page cursor size l ++ after (some c) l := by
  obtain ⟨init,hinit⟩ := (page_of_next_some h).2
  have hsplit : after cursor l = init ++ c :: (after cursor l).drop size := by
    rw [← List.singleton_append,← List.append_assoc,← hinit]
    exact (List.take_append_drop size _).symm
  have hc : ∀ c' ∈ cursor, c' < c := (mem_page (mem_page_of_next_some h)).2
  have htail : after (some c) l = after (some c) (after cursor l) := by
    simp only [after,List.filter_filter]
    refine List.filter_congr fun x _ => ?_
    simp only [Option.mem_def,Option.some.injEq,forall_eq',← Bool.decide_and,decide_eq_decide]
    exact ⟨fun hx => ⟨hx,fun c' hc' => (hc c' hc').trans hx⟩,fun hx => hx.1⟩
  have hrest : after (some c) (after cursor l) = (after cursor l).drop size := by
    conv_lhs => rw [hsplit]
    exact after_split (hsplit ▸ after_sortedLT hl)
  rw [htail,hrest,page,List.take_append_drop]

/-- Every page that is not the last one takes at least its size off what is left. -/
theorem length_after_next {k : ℕ} (hl : l.SortedLT) (hk : 0 < k) (hsize : k ≤ size)
    (h : next cursor size l = some c) :
    (after (some c) l).length / k+1 ≤ (after cursor l).length / k := by
  have hlen := congrArg List.length (page_append_after hl h)
  rw [List.length_append,(page_of_next_some h).1] at hlen
  rw [← Nat.add_div_right _ hk]
  exact Nat.div_le_div_right (by omega)

end Pages

section Traversals

/-- A client follows the cursor from page to page until there is none; the list may be
another one at each request. -/
inductive Traversal : Option α → List (List α × ℕ) → List (List α) → Prop
  | last {cursor : Option α} {l : List α} {size : ℕ} (h : next cursor size l = none) :
      Traversal cursor [(l,size)] [page cursor size l]
  | more {cursor : Option α} {c : α} {l : List α} {size : ℕ} {requests : List (List α × ℕ)}
      {pages : List (List α)} (h : next cursor size l = some c)
      (rest : Traversal (some c) requests pages) :
      Traversal cursor ((l,size) :: requests) (page cursor size l :: pages)

variable {cursor : Option α} {x : α} {requests : List (List α × ℕ)} {pages : List (List α)}

theorem Traversal.head {l : List α} {size : ℕ}
    (ht : Traversal cursor ((l,size) :: requests) pages) :
    next cursor size l = none ∧ requests = [] ∨
      ∃ c pages', next cursor size l = some c ∧ Traversal (some c) requests pages' := by
  cases ht with
  | last h => exact .inl ⟨h,rfl⟩
  | more h rest => exact .inr ⟨_,_,h,rest⟩

/-- Everything that is received comes after the cursor. -/
theorem Traversal.above (ht : Traversal cursor requests pages) (hx : x ∈ pages.flatten) :
    ∀ c ∈ cursor, c < x := by
  induction ht with
  | last h =>
    simp only [List.flatten_cons,List.flatten_nil,List.append_nil] at hx
    exact (mem_page hx).2
  | @more cursor c l size requests pages h rest ih =>
    rw [List.flatten_cons,List.mem_append] at hx
    rcases hx with hx | hx
    · exact (mem_page hx).2
    · intro c' hc'
      exact ((mem_page (mem_page_of_next_some h)).2 c' hc').trans (ih hx c rfl)

theorem Traversal.received (ht : Traversal cursor requests pages) (hx : x ∈ pages.flatten) :
    ∃ r ∈ requests, x ∈ r.1 := by
  induction ht with
  | @last cursor l size h =>
    simp only [List.flatten_cons,List.flatten_nil,List.append_nil] at hx
    exact ⟨(l,size),List.mem_cons_self,(mem_page hx).1⟩
  | @more cursor c l size requests pages h rest ih =>
    rw [List.flatten_cons,List.mem_append] at hx
    rcases hx with hx | hx
    · exact ⟨(l,size),List.mem_cons_self,(mem_page hx).1⟩
    · obtain ⟨r,hr,hmem⟩ := ih hx
      exact ⟨r,List.mem_cons_of_mem _ hr,hmem⟩

/-- The pages together are strictly ascending, so nothing is received twice. -/
theorem Traversal.sortedLT (ht : Traversal cursor requests pages)
    (hl : ∀ r ∈ requests, r.1.SortedLT) : pages.flatten.SortedLT := by
  induction ht with
  | @last cursor l size h =>
    simpa using page_sortedLT (hl (l,size) List.mem_cons_self)
  | @more cursor c l size requests pages h rest ih =>
    have hpage : (page cursor size l).SortedLT := page_sortedLT (hl (l,size) List.mem_cons_self)
    have hrest := ih fun r hr => hl r (List.mem_cons_of_mem _ hr)
    obtain ⟨init,hinit⟩ := (page_of_next_some h).2
    refine (List.pairwise_append.mpr ⟨hpage.pairwise,hrest.pairwise,?_⟩).sortedLT
    intro a ha b hb
    have hcb : c < b := rest.above hb c rfl
    rw [hinit,List.mem_append,List.mem_singleton] at ha
    rcases ha with ha | rfl
    · have hpw := hpage.pairwise
      rw [hinit,List.pairwise_append] at hpw
      exact (hpw.2.2 a ha c (List.mem_singleton.mpr rfl)).trans hcb
    · exact hcb

/-- An element that is in the list at every request is received. -/
theorem Traversal.complete (ht : Traversal cursor requests pages)
    (hl : ∀ r ∈ requests, r.1.SortedLT ∧ 0 < r.2) (hx : ∀ r ∈ requests, x ∈ r.1)
    (hc : ∀ c ∈ cursor, c < x) : x ∈ pages.flatten := by
  induction ht with
  | @last cursor l size h =>
    rw [page_of_next_none (hl (l,size) List.mem_cons_self).2 h]
    simpa using ⟨hx (l,size) List.mem_cons_self,hc⟩
  | @more cursor c l size requests pages h rest ih =>
    have hmem : x ∈ after cursor l := mem_after.mpr ⟨hx (l,size) List.mem_cons_self,hc⟩
    rw [page_append_after (hl (l,size) List.mem_cons_self).1 h,List.mem_append] at hmem
    rw [List.flatten_cons,List.mem_append]
    refine hmem.imp_right fun hafter => ?_
    exact ih (fun r hr => hl r (List.mem_cons_of_mem _ hr))
      (fun r hr => hx r (List.mem_cons_of_mem _ hr)) (mem_after.mp hafter).2

theorem Traversal.flatten_eq {l : List α} (ht : Traversal cursor requests pages)
    (hl : l.SortedLT) (hsame : ∀ r ∈ requests, r.1 = l ∧ 0 < r.2) :
    pages.flatten = after cursor l := by
  induction ht with
  | @last cursor l' size h =>
    obtain ⟨rfl,hsize⟩ := hsame (l',size) List.mem_cons_self
    simpa using page_of_next_none hsize h
  | @more cursor c l' size requests pages h rest ih =>
    obtain ⟨rfl,-⟩ := hsame (l',size) List.mem_cons_self
    rw [List.flatten_cons,ih fun r hr => hsame r (List.mem_cons_of_mem _ hr)]
    exact (page_append_after hl h).symm

theorem Traversal.length_le {l : List α} {k : ℕ} (ht : Traversal cursor requests pages)
    (hl : l.SortedLT) (hk : 0 < k) (hsame : ∀ r ∈ requests, r.1 = l ∧ k ≤ r.2) :
    pages.length ≤ (after cursor l).length / k+1 := by
  induction ht with
  | last h => simp
  | @more cursor c l' size requests pages h rest ih =>
    obtain ⟨hl',hsize⟩ : l' = l ∧ k ≤ size := hsame (l',size) List.mem_cons_self
    subst hl'
    have hrest := ih fun r hr => hsame r (List.mem_cons_of_mem _ hr)
    have hdiv := length_after_next hl hk hsize h
    rw [List.length_cons]
    omega

/-- Enough requests for a list that does not change reach its end. -/
theorem exists_traversal {l : List α} {k : ℕ} (hl : l.SortedLT) (hk : 0 < k)
    (hsame : ∀ r ∈ requests, r.1 = l ∧ k ≤ r.2)
    (hmany : (after cursor l).length / k+1 ≤ requests.length) :
    ∃ n pages, Traversal cursor (requests.take n) pages := by
  induction requests generalizing cursor with
  | nil => simp at hmany
  | cons r requests ih =>
    obtain ⟨l',size⟩ := r
    obtain ⟨hl',hsize⟩ : l' = l ∧ k ≤ size := hsame (l',size) List.mem_cons_self
    subst hl'
    cases h : next cursor size l' with
    | none => exact ⟨1,_,Traversal.last h⟩
    | some c =>
      have hdiv := length_after_next hl hk hsize h
      rw [List.length_cons] at hmany
      obtain ⟨n,pages,ht⟩ : ∃ n pages, Traversal (some c) (requests.take n) pages :=
        ih (fun r hr => hsame r (List.mem_cons_of_mem _ hr)) (by omega)
      exact ⟨n+1,_,Traversal.more h ht⟩

/-- Where only finitely many elements ever come after the cursor, the pages come to an end,
however the list changes from request to request. -/
theorem exists_traversal_of_finite {requests : ℕ → List α × ℕ} {S : Set α} (hS : S.Finite)
    (hmem : ∀ n, ∀ x ∈ (requests n).1, (∀ c ∈ cursor, c < x) → x ∈ S) :
    ∃ n pages, Traversal cursor ((List.range (n+1)).map requests) pages := by
  obtain ⟨k,hk⟩ : ∃ k, S.ncard = k := ⟨_,rfl⟩
  induction k using Nat.strong_induction_on generalizing cursor requests S with
  | _ k ih =>
    obtain ⟨l,size,hl⟩ : ∃ l size, requests 0 = (l,size) := ⟨_,_,rfl⟩
    cases h : next cursor size l with
    | none =>
      refine ⟨0,[page cursor size l],?_⟩
      simpa [hl] using Traversal.last h
    | some c =>
      obtain ⟨hc,habove⟩ := mem_page (mem_page_of_next_some h)
      have hsmaller : (S ∩ {x | c < x}).ncard < k := by
        rw [← hk]
        refine Set.ncard_lt_ncard ⟨Set.inter_subset_left,fun hsub => ?_⟩ hS
        have hcS : c ∈ S := hmem 0 c (by rw [hl]; exact hc) habove
        exact lt_irrefl c (hsub hcS).2
      have hrest : ∀ n, ∀ x ∈ (requests (n+1)).1, (∀ d ∈ some c, d < x) → x ∈ S ∩ {x | c < x} :=
        fun n x hx hcx => ⟨hmem (n+1) x hx fun d hd => (habove d hd).trans (hcx c rfl),hcx c rfl⟩
      obtain ⟨n,pages,ht⟩ := ih _ hsmaller (hS.inter_of_left _) hrest rfl
      refine ⟨n+1,page cursor size l :: pages,?_⟩
      rw [List.range_succ_eq_map,List.map_cons,List.map_map,hl]
      exact .more h ht

/-- The same where it is known only of each cursor that the first request can give. -/
theorem exists_traversal_of_finite_behind {requests : ℕ → List α × ℕ}
    (hfinite : ∀ c ∈ (requests 0).1, ∃ S : Set α, S.Finite ∧
      ∀ n, ∀ x ∈ (requests (n+1)).1, c < x → x ∈ S) :
    ∃ n pages, Traversal cursor ((List.range (n+1)).map requests) pages := by
  obtain ⟨l,size,hl⟩ : ∃ l size, requests 0 = (l,size) := ⟨_,_,rfl⟩
  cases h : next cursor size l with
  | none =>
    refine ⟨0,[page cursor size l],?_⟩
    simpa [hl] using Traversal.last h
  | some c =>
    obtain ⟨S,hS,hbehind⟩ := hfinite c (by
      rw [hl]
      exact (mem_page (mem_page_of_next_some h)).1)
    have hrest : ∀ n, ∀ x ∈ (requests (n+1)).1, (∀ d ∈ some c, d < x) → x ∈ S :=
      fun n x hx hcx => hbehind n x hx (hcx c rfl)
    obtain ⟨n,pages,ht⟩ := exists_traversal_of_finite hS hrest
    refine ⟨n+1,page cursor size l :: pages,?_⟩
    rw [List.range_succ_eq_map,List.map_cons,List.map_map,hl]
    exact .more h ht

end Traversals

end Paging
