import Mathlib.Data.List.Nodup
import Mathlib.Order.Nat

/-! Reading a fixed list chunk by chunk. A client gets the elements from some position on, and
as cursor the key of the last one of them while there are more; the position is found again
from that key. -/
namespace Chunks

variable {α κ : Type*}

/-- A client follows the cursors until there is none. -/
inductive Traversal (answers : Option κ → List α → Option κ → Prop) :
    Option κ → List (List α) → Prop
  | last {cursor : Option κ} {data : List α} (h : answers cursor data none) :
      Traversal answers cursor [data]
  | more {cursor : Option κ} {data : List α} {c : κ} {chunks : List (List α)}
      (h : answers cursor data (some c)) (rest : Traversal answers (some c) chunks) :
      Traversal answers cursor (data :: chunks)

def chunk (rows : List α) (limit start : ℕ) : List α := (rows.drop start).take limit

def next (rows : List α) (limit : ℕ) (key : α → κ) (start : ℕ) : Option κ :=
  if start+limit < rows.length then rows[start+limit-1]?.map key else none

/-- The answers are chunks of the list, read from the position of the cursor on. -/
structure Chunked (answers : Option κ → List α → Option κ → Prop) (rows : List α) (limit : ℕ)
    (key : α → κ) (position : Option κ → ℕ) : Prop where
  limit_pos : 0 < limit
  start : position none = 0
  answers_iff : ∀ {cursor : Option κ} {data : List α} {c : Option κ},
    (∀ k ∈ cursor, k ∈ rows.map key) → (answers cursor data c ↔
      data = chunk rows limit (position cursor) ∧ c = next rows limit key (position cursor))

/-- The key of every full chunk but the last leads to the element behind the chunk. -/
def Lined (rows : List α) (limit : ℕ) (key : α → κ) (position : Option κ → ℕ) : Prop :=
  ∀ k row, k*limit < rows.length → rows[k*limit-1]? = some row → 0 < k →
    position (some (key row)) = k*limit

variable {answers : Option κ → List α → Option κ → Prop} {rows : List α} {limit : ℕ}
  {key : α → κ} {position : Option κ → ℕ} {cursor : Option κ} {chunks : List (List α)}

/-- A client that keeps coming to the same cursors does not reach an end. -/
theorem Traversal.not_closed {K : Option κ → Prop}
    (hclosed : ∀ {cursor : Option κ} {data : List α} {c : Option κ}, K cursor →
      answers cursor data c → c ≠ none ∧ K c)
    (ht : Traversal answers cursor chunks) : ¬ K cursor := by
  induction ht with
  | last h => exact fun hK => (hclosed hK h).1 rfl
  | more h _ ih => exact fun hK => ih (hclosed hK h).2

theorem next_eq_some {start : ℕ} {c : κ} : next rows limit key start = some c ↔
    start+limit < rows.length ∧ ∃ row, rows[start+limit-1]? = some row ∧ key row = c := by
  unfold next
  split_ifs with h
  · simp [h]
  · simp [h]

theorem next_eq_none {start : ℕ} (hpos : 0 < limit) :
    next rows limit key start = none ↔ rows.length ≤ start+limit := by
  unfold next
  split_ifs with h
  · have hget : start+limit-1 < rows.length := by omega
    rw [List.getElem?_eq_getElem hget]
    simp [h]
  · simpa using h

theorem next_mem {start : ℕ} {c : κ} (h : next rows limit key start = some c) :
    ∀ k ∈ some c, k ∈ rows.map key := by
  rintro k ⟨⟩
  obtain ⟨-,row,hrow,rfl⟩ := next_eq_some.mp h
  exact List.mem_map_of_mem (List.mem_of_getElem? hrow)

/-- One element more than the chunk is read, to see whether there is one. -/
theorem more_iff {start : ℕ} : limit < ((rows.drop start).take (limit+1)).length ↔
    start+limit < rows.length := by
  simp
  omega

theorem chunk_of_more {start : ℕ} :
    (if start+limit < rows.length then ((rows.drop start).take (limit+1)).take limit
      else (rows.drop start).take (limit+1)) = chunk rows limit start := by
  split_ifs with h
  · rw [List.take_take,Nat.min_eq_left (Nat.le_succ limit),chunk]
  · have hshort : (rows.drop start).length ≤ limit := by
      rw [List.length_drop]
      omega
    rw [chunk,List.take_of_length_le hshort,
      List.take_of_length_le (hshort.trans (Nat.le_succ limit))]

theorem next_of_chunk (hpos : 0 < limit) {start : ℕ} :
    (if start+limit < rows.length then (chunk rows limit start).getLast?.map key else none) =
      next rows limit key start := by
  unfold next
  split_ifs with h
  · have hlength : (chunk rows limit start).length = limit := by
      rw [chunk,List.length_take,List.length_drop]
      omega
    have hlast : start+(limit-1) = start+limit-1 := by omega
    rw [List.getLast?_eq_getElem?,hlength,chunk,List.getElem?_take_of_lt (by omega),
      List.getElem?_drop,hlast]
  · rfl

theorem chunk_append (start : ℕ) :
    chunk rows limit start ++ rows.drop (start+limit) = rows.drop start := by
  rw [chunk,← List.drop_drop,List.take_append_drop]

theorem getElem?_mem_drop {start : ℕ} {a : α} (h : rows[start]? = some a) :
    a ∈ rows.drop start :=
  List.mem_iff_getElem?.mpr ⟨0,by rwa [List.getElem?_drop]⟩

theorem getElem?_mem_chunk (hpos : 0 < limit) {start : ℕ} {a : α} (h : rows[start]? = some a) :
    a ∈ chunk rows limit start :=
  List.mem_iff_getElem?.mpr ⟨0,by rwa [chunk,List.getElem?_take_of_lt hpos,List.getElem?_drop]⟩

theorem index_of_mem_drop (hnodup : rows.Nodup) {i start : ℕ} {a : α} (hi : rows[i]? = some a)
    (ha : a ∈ rows.drop start) : start ≤ i := by
  obtain ⟨n,hn⟩ := List.mem_iff_getElem?.mp ha
  rw [List.getElem?_drop,← hi] at hn
  have hlt : i < rows.length := (List.getElem?_eq_some_iff.mp hi).1
  have heq := (List.getElem?_inj hlt hnodup).mp hn.symm
  omega

namespace Chunked

/-- If the keys lead behind their chunks, the list is traversed in its order. -/
theorem traversal (h : Chunked answers rows limit key position)
    (hlined : Lined rows limit key position) (k : ℕ) (hcursor : ∀ c ∈ cursor, c ∈ rows.map key)
    (hk : position cursor = k*limit) :
    ∃ chunks, Traversal answers cursor chunks ∧ chunks.flatten = rows.drop (k*limit) := by
  have hpos := h.limit_pos
  induction hleft : rows.length-position cursor using Nat.strongRecOn
    generalizing cursor k with
  | ind left ih =>
    by_cases hmore : position cursor+limit < rows.length
    · have hget : position cursor+limit-1 < rows.length := by omega
      have hlast := List.getElem?_eq_getElem hget
      have hnext : next rows limit key (position cursor) = some _ :=
        next_eq_some.mpr ⟨hmore,_,hlast,rfl⟩
      have hsucc : (k+1)*limit = position cursor+limit := by rw [hk,Nat.succ_mul]
      have hposition := hlined (k+1) _ (by omega) (by rw [hsucc]; exact hlast) k.succ_pos
      obtain ⟨rest,hrest,hflat⟩ := ih _ (by omega) (k+1) (next_mem hnext) hposition rfl
      refine ⟨_,.more ((h.answers_iff hcursor).mpr ⟨rfl,hnext.symm⟩) hrest,?_⟩
      rw [List.flatten_cons,hflat,hsucc,chunk_append,hk]
    · have hend : rows.length ≤ position cursor+limit := by omega
      refine ⟨_,.last ((h.answers_iff hcursor).mpr ⟨rfl,((next_eq_none hpos).mpr hend).symm⟩),?_⟩
      rw [List.flatten_singleton,← hk,chunk,List.take_of_length_le]
      rw [List.length_drop]
      omega

theorem whole_traversal (h : Chunked answers rows limit key position)
    (hlined : Lined rows limit key position) :
    ∃ chunks, Traversal answers none chunks ∧ chunks.flatten = rows := by
  have hstart : position none = 0*limit := by rw [h.start,Nat.zero_mul]
  obtain ⟨chunks,ht,hflat⟩ := h.traversal hlined 0 (by simp) hstart
  exact ⟨chunks,ht,by rw [hflat,Nat.zero_mul,List.drop_zero]⟩

theorem chunk_mem (h : Chunked answers rows limit key position)
    (ht : Traversal answers cursor chunks) (hcursor : ∀ c ∈ cursor, c ∈ rows.map key) {a : α}
    (ha : a ∈ chunk rows limit (position cursor)) : a ∈ chunks.flatten := by
  cases ht with
  | last hdata =>
    obtain ⟨rfl,-⟩ := (h.answers_iff hcursor).mp hdata
    simpa using ha
  | more hdata rest =>
    obtain ⟨rfl,-⟩ := (h.answers_iff hcursor).mp hdata
    exact List.mem_append_left _ ha

section Rising

variable (hrising : ∀ (i j : ℕ) (a b : α), i ≤ j → rows[i]? = some a → rows[j]? = some b →
  position (some (key a)) ≤ position (some (key b)))
include hrising

/-- Where later keys do not lead to earlier positions, no later answer goes back. -/
theorem mem_drop (h : Chunked answers rows limit key position) {first : ℕ} {row : α}
    (hrow : rows[first]? = some row) (hfirst : first < position (some (key row))+limit)
    (ht : Traversal answers cursor chunks) (hcursor : ∀ c ∈ cursor, c ∈ rows.map key)
    (hle : position (some (key row)) ≤ position cursor) :
    ∀ a ∈ chunks.flatten, a ∈ rows.drop (position (some (key row))) := by
  have hdrop : ∀ {start : ℕ}, position (some (key row)) ≤ start →
      ∀ a ∈ chunk rows limit start, a ∈ rows.drop (position (some (key row))) :=
    fun hstart a ha => List.drop_subset_drop_left rows hstart (List.mem_of_mem_take ha)
  induction ht with
  | last hdata =>
    obtain ⟨rfl,-⟩ := (h.answers_iff hcursor).mp hdata
    rw [List.flatten_singleton]
    exact hdrop hle
  | @more cursor data c chunks hdata rest ih =>
    obtain ⟨rfl,hnext⟩ := (h.answers_iff hcursor).mp hdata
    obtain ⟨hlt,last,hlast,rfl⟩ := next_eq_some.mp hnext.symm
    have hlater := hrising first (position cursor+limit-1) row last (by omega) hrow hlast
    intro a ha
    rw [List.flatten_cons] at ha
    rcases List.mem_append.mp ha with ha | ha
    · exact hdrop hle a ha
    · exact ih (next_mem hnext.symm) hlater a ha

/-- A traversal that meets every element once leads behind every full chunk. -/
theorem lined_above (h : Chunked answers rows limit key position) (hnodup : rows.Nodup)
    (ht : Traversal answers cursor chunks) (hcursor : ∀ c ∈ cursor, c ∈ rows.map key) (k : ℕ)
    (hk : position cursor = k*limit) (hperm : chunks.flatten.Perm (rows.drop (k*limit))) :
    ∀ j row, j*limit < rows.length → rows[j*limit-1]? = some row → k < j →
      position (some (key row)) = j*limit := by
  have hpos := h.limit_pos
  induction ht generalizing k with
  | @last cursor data hdata =>
    obtain ⟨-,hnext⟩ := (h.answers_iff hcursor).mp hdata
    have hend := (next_eq_none hpos).mp hnext.symm
    intro j row hj _ hkj
    have hmul := Nat.mul_le_mul_right limit (Nat.succ_le_of_lt hkj)
    rw [Nat.succ_mul] at hmul
    omega
  | @more cursor data c chunks hdata rest ih =>
    obtain ⟨rfl,hnext⟩ := (h.answers_iff hcursor).mp hdata
    have hvalid := next_mem hnext.symm
    obtain ⟨hlt,last,hlast,rfl⟩ := next_eq_some.mp hnext.symm
    have hsucc : (k+1)*limit = position cursor+limit := by rw [hk,Nat.succ_mul]
    have hchunk : rows.drop (position cursor) =
        chunk rows limit (position cursor) ++ rows.drop (position cursor+limit) :=
      (chunk_append _).symm
    rw [List.flatten_cons,← hk,hchunk,List.perm_append_left_iff,← hsucc] at hperm
    have hposition : position (some (key last)) = (k+1)*limit := by
      rcases lt_trichotomy (position (some (key last))) ((k+1)*limit) with hless | heq | hmore
      · -- the next answer starts with an element that has been met before
        have hget := List.getElem?_eq_getElem (hless.trans_le (hsucc ▸ hlt.le))
        have hagain := hperm.mem_iff.mp (h.chunk_mem rest hvalid (getElem?_mem_chunk hpos hget))
        exact absurd (index_of_mem_drop hnodup hget hagain) (not_le.mpr hless)
      · exact heq
      · -- nobody meets the element behind this chunk
        have hget := List.getElem?_eq_getElem (show (k+1)*limit < rows.length by omega)
        have hmet := hperm.mem_iff.mpr (getElem?_mem_drop hget)
        have hlate := h.mem_drop hrising hlast (by omega) rest hvalid le_rfl _ hmet
        exact absurd (index_of_mem_drop hnodup hget hlate) (not_le.mpr hmore)
    intro j row hj hrow hkj
    rcases Nat.eq_or_lt_of_le (Nat.succ_le_of_lt hkj) with rfl | hlater
    · rw [hsucc] at hrow
      rw [hlast] at hrow
      obtain rfl := Option.some.inj hrow
      exact hposition
    · exact ih hvalid (k+1) hposition hperm j row hj hrow hlater

/-- Every element is met exactly once precisely when the keys lead behind their chunks. -/
theorem covers_iff (h : Chunked answers rows limit key position) (hnodup : rows.Nodup) :
    (∃ chunks, Traversal answers none chunks ∧ chunks.flatten.Perm rows) ↔
      Lined rows limit key position := by
  constructor
  · rintro ⟨chunks,ht,hperm⟩ k row hk hrow h0
    have hstart : position none = 0*limit := by rw [h.start,Nat.zero_mul]
    refine h.lined_above hrising hnodup ht (by simp) 0 hstart ?_ k row hk hrow h0
    rwa [Nat.zero_mul,List.drop_zero]
  · intro hlined
    obtain ⟨chunks,ht,hflat⟩ := h.whole_traversal hlined
    exact ⟨chunks,ht,.of_eq hflat⟩

end Rising

end Chunked

end Chunks
