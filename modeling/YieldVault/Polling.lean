import Mathlib.Tactic

/-! Polls with weighted ballots, as a history of events. A history is lawful when each
event was allowed after the ones before it; what is known of the votes follows from
that alone. -/
namespace Polling

structure Ballot (K V : Type*) where
  poll : K
  voter : V
  support : Bool
  weight : ℤ
  deriving DecidableEq

inductive Event (K V C : Type*)
  | opened (poll : K) (choice : C)
  | cast (ballot : Ballot K V)
  | closed (poll : K) (quorum : ℤ)
  deriving DecidableEq

variable {K V C : Type*}

namespace Event

def opening : Event K V C → Option (K × C)
  | opened poll choice => some (poll,choice)
  | _ => none

def ballot : Event K V C → Option (Ballot K V)
  | cast ballot => some ballot
  | _ => none

def closing : Event K V C → Option K
  | closed poll _ => some poll
  | _ => none

end Event

def openings (h : List (Event K V C)) : List (K × C) := h.filterMap Event.opening

def polls (h : List (Event K V C)) : List K := (openings h).map Prod.fst

def ballots (h : List (Event K V C)) : List (Ballot K V) := h.filterMap Event.ballot

def closedPolls (h : List (Event K V C)) : List K := h.filterMap Event.closing

section Counting

variable [DecidableEq K] (h : List (Event K V C)) (poll : K)

def ballotsIn : List (Ballot K V) := (ballots h).filter fun b => b.poll = poll

def voters : List V := (ballotsIn h poll).map Ballot.voter

def votes (support : Bool) : ℤ :=
  (((ballotsIn h poll).filter fun b => b.support = support).map Ballot.weight).sum

end Counting

section Concat

variable (h : List (Event K V C)) (poll : K) (choice : C) (b : Ballot K V) (quorum : ℤ)

@[simp] theorem openings_opened : openings (h ++ [.opened poll choice]) =
    openings h ++ [(poll,choice)] := by simp [openings,Event.opening]
@[simp] theorem openings_cast : openings (h ++ [.cast b]) = openings h := by
  simp [openings,Event.opening]
@[simp] theorem openings_closed : openings (h ++ [.closed poll quorum]) = openings h := by
  simp [openings,Event.opening]

@[simp] theorem polls_opened : polls (h ++ [.opened poll choice]) = polls h ++ [poll] := by
  simp [polls]
@[simp] theorem polls_cast : polls (h ++ [.cast b]) = polls h := by simp [polls]
@[simp] theorem polls_closed : polls (h ++ [.closed poll quorum]) = polls h := by simp [polls]

@[simp] theorem ballots_opened : ballots (h ++ [.opened poll choice]) = ballots h := by
  simp [ballots,Event.ballot]
@[simp] theorem ballots_cast : ballots (h ++ [.cast b]) = ballots h ++ [b] := by
  simp [ballots,Event.ballot]
@[simp] theorem ballots_closed : ballots (h ++ [.closed poll quorum]) = ballots h := by
  simp [ballots,Event.ballot]

@[simp] theorem closedPolls_opened :
    closedPolls (h ++ [.opened poll choice]) = closedPolls h := by
  simp [closedPolls,Event.closing]
@[simp] theorem closedPolls_cast : closedPolls (h ++ [.cast b]) = closedPolls h := by
  simp [closedPolls,Event.closing]
@[simp] theorem closedPolls_closed :
    closedPolls (h ++ [.closed poll quorum]) = closedPolls h ++ [poll] := by
  simp [closedPolls,Event.closing]

variable [DecidableEq K] (k : K) (support : Bool)

@[simp] theorem voters_opened : voters (h ++ [.opened poll choice]) k = voters h k := by
  simp [voters,ballotsIn]
@[simp] theorem voters_closed : voters (h ++ [.closed poll quorum]) k = voters h k := by
  simp [voters,ballotsIn]
theorem voters_cast : voters (h ++ [.cast b]) k =
    voters h k ++ if b.poll = k then [b.voter] else [] := by
  by_cases hk : b.poll = k <;> simp [voters,ballotsIn,hk]

@[simp] theorem votes_opened :
    votes (h ++ [.opened poll choice]) k support = votes h k support := by
  simp [votes,ballotsIn]
@[simp] theorem votes_closed :
    votes (h ++ [.closed poll quorum]) k support = votes h k support := by
  simp [votes,ballotsIn]
theorem votes_cast : votes (h ++ [.cast b]) k support =
    votes h k support + if b.poll = k ∧ b.support = support then b.weight else 0 := by
  by_cases hk : b.poll = k <;> by_cases hs : b.support = support <;>
    simp [votes,ballotsIn,hk,hs]

end Concat

section Laws

variable [LinearOrder K] {h : List (Event K V C)} {e : Event K V C} {k : K}

/-- What may happen after a history: a poll is opened under a new number, a new voter casts
a ballot while the poll is open, or the poll is closed with a quorum and a majority. -/
def May (h : List (Event K V C)) : Event K V C → Prop
  | .opened poll _ => ∀ k ∈ polls h, k < poll
  | .cast b => b.poll ∈ polls h ∧ b.poll ∉ closedPolls h ∧ b.voter ∉ voters h b.poll ∧ 0 < b.weight
  | .closed poll quorum => poll ∈ polls h ∧ poll ∉ closedPolls h ∧
      quorum ≤ votes h poll true ∧ votes h poll false < votes h poll true

def Lawful (h : List (Event K V C)) : Prop :=
  ∀ before e after, h = before ++ e :: after → May before e

theorem lawful_nil : Lawful ([] : List (Event K V C)) := by
  intro before e after h
  simp at h

theorem lawful_concat : Lawful (h ++ [e]) ↔ Lawful h ∧ May h e := by
  constructor
  · intro hl
    refine ⟨fun before e' after hh => ?_,hl h e [] rfl⟩
    exact hl before e' (after ++ [e]) (by simp [hh])
  · rintro ⟨hl,he⟩ before e' after hh
    rcases List.eq_nil_or_concat after with rfl | ⟨after',e'',rfl⟩
    · obtain ⟨rfl,hlast⟩ := List.append_inj' hh rfl
      obtain rfl := (List.cons.inj hlast).1
      exact he
    · rw [List.concat_eq_append,← List.cons_append,← List.append_assoc] at hh
      exact hl before e' after' (List.append_inj' hh rfl).1

theorem Lawful.of_append {later : List (Event K V C)} (hl : Lawful (h ++ later)) : Lawful h := by
  intro before e' after hh
  exact hl before e' (after ++ later) (by simp [hh])

theorem Lawful.polls_sortedLT (hl : Lawful h) : (polls h).SortedLT := by
  induction h using List.reverseRecOn with
  | nil => exact List.Pairwise.nil.sortedLT
  | append_singleton h e ih =>
    obtain ⟨hpast,he⟩ := lawful_concat.mp hl
    cases e with
    | opened poll choice =>
      rw [polls_opened]
      refine (List.pairwise_append.mpr ⟨(ih hpast).pairwise,List.pairwise_singleton _ _,?_⟩).sortedLT
      intro k hk poll' hpoll'
      rw [List.mem_singleton.mp hpoll']
      exact he k hk
    | cast b => simpa using ih hpast
    | closed poll quorum => simpa using ih hpast

theorem Lawful.weight_pos (hl : Lawful h) {b : Ballot K V} (hb : b ∈ ballots h) : 0 < b.weight := by
  induction h using List.reverseRecOn with
  | nil => simp [ballots] at hb
  | append_singleton h e ih =>
    obtain ⟨hpast,he⟩ := lawful_concat.mp hl
    cases e with
    | opened poll choice => exact ih hpast (by simpa using hb)
    | cast b' =>
      rw [ballots_cast,List.mem_append,List.mem_singleton] at hb
      rcases hb with hb | rfl
      · exact ih hpast hb
      · exact he.2.2.2
    | closed poll quorum => exact ih hpast (by simpa using hb)

theorem Lawful.voters_nodup (hl : Lawful h) (k : K) : (voters h k).Nodup := by
  induction h using List.reverseRecOn with
  | nil => exact List.nodup_nil
  | append_singleton h e ih =>
    obtain ⟨hpast,he⟩ := lawful_concat.mp hl
    cases e with
    | opened poll choice => simpa using ih hpast
    | cast b =>
      rw [voters_cast]
      split_ifs with hk
      · refine List.nodup_append'.mpr ⟨ih hpast,List.nodup_singleton _,?_⟩
        rw [List.disjoint_singleton,← hk]
        exact he.2.2.1
      · simpa using ih hpast
    | closed poll quorum => simpa using ih hpast

theorem Lawful.closedPolls_nodup (hl : Lawful h) : (closedPolls h).Nodup := by
  induction h using List.reverseRecOn with
  | nil => exact List.nodup_nil
  | append_singleton h e ih =>
    obtain ⟨hpast,he⟩ := lawful_concat.mp hl
    cases e with
    | opened poll choice => simpa using ih hpast
    | cast b => simpa using ih hpast
    | closed poll quorum =>
      rw [closedPolls_closed]
      refine List.nodup_append'.mpr ⟨ih hpast,List.nodup_singleton _,?_⟩
      rw [List.disjoint_singleton]
      exact he.2.1

theorem Lawful.unopened (hl : Lawful h) (hk : k ∉ polls h) :
    ballotsIn h k = [] ∧ k ∉ closedPolls h := by
  induction h using List.reverseRecOn with
  | nil => exact ⟨rfl,List.not_mem_nil⟩
  | append_singleton h e ih =>
    obtain ⟨hpast,he⟩ := lawful_concat.mp hl
    cases e with
    | opened poll choice =>
      rw [polls_opened,List.mem_append,not_or] at hk
      simpa [ballotsIn] using ih hpast hk.1
    | cast b =>
      rw [polls_cast] at hk
      have hne : b.poll ≠ k := fun h' => hk (h' ▸ he.1)
      simpa [ballotsIn,hne] using ih hpast hk
    | closed poll quorum =>
      rw [polls_closed] at hk
      have hne : k ≠ poll := fun h' => hk (h' ▸ he.1)
      simpa [ballotsIn,hne] using ih hpast hk

/-- No ballot is counted once a poll is closed. -/
theorem Lawful.votes_final {later : List (Event K V C)} (hl : Lawful (h ++ later))
    (hk : k ∈ closedPolls h) (support : Bool) :
    votes (h ++ later) k support = votes h k support := by
  induction later using List.reverseRecOn with
  | nil => rw [List.append_nil]
  | append_singleton later e ih =>
    rw [← List.append_assoc] at hl ⊢
    obtain ⟨hpast,he⟩ := lawful_concat.mp hl
    rw [← ih hpast]
    cases e with
    | opened poll choice => exact votes_opened _ _ _ _ _
    | cast b =>
      have hclosed : k ∈ closedPolls (h ++ later) := by
        rw [closedPolls,List.filterMap_append]
        exact List.mem_append_left _ hk
      have hne : ¬ (b.poll = k ∧ b.support = support) := fun h' => he.2.1 (h'.1 ▸ hclosed)
      rw [votes_cast,if_neg hne,add_zero]
    | closed poll quorum => exact votes_closed _ _ _ _ _

end Laws

end Polling
