import YieldVault.StorageParts
import YieldVault.Polling
import YieldVault.SimpleHost

/-! The DAO's choice of the BENJI strategy. The calls of a run make up a lawful history
of polls, and the stored proposals and votes are what that history says. -/
namespace YieldVault

open FixedWidth Contract

variable {σ : Type} {host : Host σ} {env : Env σ} {chain : σ} {l t : Ledger σ}

abbrev PollHistory := List (Polling.Event ℕ Address Address)

/-- What a successful call adds to the history. -/
def pollEvents (l : Ledger σ) (v : Value) : Call → PollHistory
  | .createStrategyProposal _ strategy => match v with
    | .id id => [.opened id strategy]
    | _ => []
  | .voteOnProposal voter id support weight => [.cast ⟨id,voter,support,weight⟩]
  | .executeStrategyProposal id => [.closed id (l.storage.daoThreshold.getD 1)]
  | _ => []

def observed (l : Ledger σ) : Action host → PollHistory
  | .outside _ => []
  | .invoke inv => match (dispatch inv.env inv.call).run l with
    | .ok v _ => pollEvents l v inv.call
    | _ => []

def history (host : Host σ) (chain : σ) (acts : List (Action host)) : PollHistory :=
  Runs.trace (step host) observed (genesis chain) acts

def proposalIn (h : PollHistory) (id : ℕ) : Option StrategyProposal :=
  ((Polling.openings h).lookup id).map fun strategy =>
    ⟨strategy,Polling.votes h id true,Polling.votes h id false,
      decide (id ∈ Polling.closedPolls h)⟩

section Histories

variable {h : PollHistory} {id : ℕ} {p : StrategyProposal}

theorem lookup_eq_none : (Polling.openings h).lookup id = none ↔ id ∉ Polling.polls h := by
  simp [List.lookup_eq_none_iff,Polling.polls]
  constructor
  · intro hno strategy hmem
    exact hno id strategy hmem rfl
  · intro hno k strategy hmem hk
    exact hno strategy (hk ▸ hmem)

theorem proposalIn_eq_some (hp : proposalIn h id = some p) :
    id ∈ Polling.polls h ∧ p.yesVotes = Polling.votes h id true ∧
      p.noVotes = Polling.votes h id false ∧ p.executed = decide (id ∈ Polling.closedPolls h) := by
  obtain ⟨strategy,hlookup,rfl⟩ := Option.map_eq_some_iff.mp hp
  refine ⟨?_,rfl,rfl,rfl⟩
  by_contra hno
  simp [lookup_eq_none.mpr hno] at hlookup

theorem proposalIn_opened (hl : Polling.Lawful h) (hid : id ∉ Polling.polls h)
    (strategy : Address) : proposalIn (h ++ [.opened id strategy]) =
      Function.update (proposalIn h) id (some ⟨strategy,0,0,false⟩) := by
  obtain ⟨hnone,hopen⟩ := hl.unopened hid
  funext k
  by_cases hk : k = id
  · subst hk
    have hzero : ∀ support, Polling.votes h k support = 0 := by
      intro support
      simp [Polling.votes,hnone]
    simp [proposalIn,List.lookup_append,lookup_eq_none.mpr hid,hzero,hopen]
  · have hbeq : (k == id) = false := beq_eq_false_iff_ne.mpr hk
    simp [proposalIn,List.lookup_append,List.lookup_cons,hbeq,hk]

theorem tally_eq {support : Bool} {weight : ℤ} {counted : StrategyProposal}
    (ht : tally p support weight = some counted) :
    counted = ⟨p.strategy,p.yesVotes+(if support = true then weight else 0),
      p.noVotes+(if support = false then weight else 0),p.executed⟩ := by
  cases support <;> simp [tally] at ht <;> simp [ht.2.symm]

theorem proposalIn_cast (hp : proposalIn h id = some p) {voter : Address} {support : Bool}
    {weight : ℤ} {counted : StrategyProposal} (ht : tally p support weight = some counted) :
    proposalIn (h ++ [.cast ⟨id,voter,support,weight⟩]) =
      Function.update (proposalIn h) id (some counted) := by
  obtain ⟨strategy,hlookup,rfl⟩ := Option.map_eq_some_iff.mp hp
  rw [tally_eq ht]
  funext k
  by_cases hk : k = id
  · subst hk
    simp [proposalIn,hlookup,Polling.votes_cast]
  · simp [proposalIn,hk,Polling.votes_cast,Ne.symm hk]

theorem proposalIn_closed (hp : proposalIn h id = some p) (quorum : ℤ) :
    proposalIn (h ++ [.closed id quorum]) =
      Function.update (proposalIn h) id (some { p with executed := true }) := by
  obtain ⟨strategy,hlookup,rfl⟩ := Option.map_eq_some_iff.mp hp
  funext k
  by_cases hk : k = id
  · subst hk
    simp [proposalIn,hlookup]
  · simp [proposalIn,hk]

theorem proposalIn_final {later : PollHistory} (hl : Polling.Lawful (h ++ later))
    (hid : id ∈ Polling.closedPolls h) : proposalIn (h ++ later) id = proposalIn h id := by
  have hmem : id ∈ Polling.polls h := by
    by_contra hno
    exact (hl.of_append.unopened hno).2 hid
  obtain ⟨strategy,hlookup⟩ := Option.ne_none_iff_exists'.mp fun hnone =>
    lookup_eq_none.mp hnone hmem
  have hclosed : id ∈ Polling.closedPolls (h ++ later) := by
    rw [Polling.closedPolls,List.filterMap_append]
    exact List.mem_append_left _ hid
  have hopenings : Polling.openings (h ++ later) = Polling.openings h ++ Polling.openings later :=
    List.filterMap_append
  simp [proposalIn,hopenings,List.lookup_append,hlookup,hl.votes_final hid,hid,hclosed]

end Histories

/-- The storage says what a lawful history says. -/
structure Records (s : Storage) (h : PollHistory) : Prop where
  lawful : Polling.Lawful h
  numbered : ∀ id ∈ Polling.polls h, id ≤ s.proposalNonce.getD 0
  proposals : s.proposal = proposalIn h
  cast : ∀ id voter, s.vote id voter =
    if voter ∈ Polling.voters h id then some true else none

theorem records_empty : Records {} [] :=
  ⟨Polling.lawful_nil,by simp [Polling.polls,Polling.openings],rfl,fun _ _ => rfl⟩

section Steps

variable {h : PollHistory} {s : Storage}

theorem Records.of_part {s' : Storage} (hr : Records s h)
    (hp : part .governance s' = part .governance s) : Records s' h := by
  have hnonce : s'.proposalNonce = s.proposalNonce := read_of_part (fun _ => rfl) hp
  have hproposals : s'.proposal = s.proposal := read_of_part (fun _ => rfl) hp
  have hvotes : s'.vote = s.vote := read_of_part (fun _ => rfl) hp
  exact ⟨hr.lawful,hnonce ▸ hr.numbered,hproposals ▸ hr.proposals,hvotes ▸ hr.cast⟩

theorem Records.created (hr : Records s h) (strategy : Address) {n : ℕ}
    (hn : s.proposalNonce.getD 0+1 = n) :
    Records (setProposal n ⟨strategy,0,0,false⟩ { s with proposalNonce := some n })
      (h ++ [.opened n strategy]) := by
  have hfresh : ∀ id ∈ Polling.polls h, id < n := by
    intro id hid
    have h1 := hr.numbered id hid
    omega
  have hnot : n ∉ Polling.polls h := fun hmem => (hfresh n hmem).false
  refine ⟨Polling.lawful_concat.mpr ⟨hr.lawful,hfresh⟩,?_,?_,?_⟩
  · intro id hid
    rw [Polling.polls_opened,List.mem_append,List.mem_singleton] at hid
    rcases hid with hid | rfl
    · exact (hfresh id hid).le
    · exact le_rfl
  · rw [proposalIn_opened hr.lawful hnot,← hr.proposals]
    rfl
  · intro id voter
    rw [Polling.voters_opened]
    exact hr.cast id voter

theorem Records.voted (hr : Records s h) {id : ℕ} {voter : Address} {support : Bool} {weight : ℤ}
    {p counted : StrategyProposal} (hw : 0 < weight) (hv : s.vote id voter = none)
    (hp : s.proposal id = some p) (hopen : p.executed = false)
    (ht : tally p support weight = some counted) :
    Records (setVote id voter (setProposal id counted s))
      (h ++ [.cast ⟨id,voter,support,weight⟩]) := by
  rw [hr.proposals] at hp
  obtain ⟨hmem,-,-,hexec⟩ := proposalIn_eq_some hp
  have hnew : voter ∉ Polling.voters h id := by
    intro hin
    rw [hr.cast,if_pos hin] at hv
    cases hv
  refine ⟨Polling.lawful_concat.mpr ⟨hr.lawful,hmem,?_,hnew,hw⟩,?_,?_,?_⟩
  · simpa [hopen] using hexec
  · rw [Polling.polls_cast]
    exact hr.numbered
  · rw [proposalIn_cast hp ht,← hr.proposals]
    rfl
  · intro id' voter'
    have hold := hr.cast id' voter'
    rw [Polling.voters_cast]
    change Function.update s.vote id (Function.update (s.vote id) voter (some true)) id' voter' = _
    by_cases hid : id' = id
    · subst hid
      by_cases hvoter : voter' = voter
      · simp [hvoter]
      · simp [hvoter,hold]
    · simp [hid,hold,Ne.symm hid]

theorem Records.executed (hr : Records s h) {id : ℕ} {p : StrategyProposal}
    (hp : s.proposal id = some p) (hopen : p.executed = false)
    (hquorum : s.daoThreshold.getD 1 ≤ p.yesVotes) (hmajority : p.noVotes < p.yesVotes) :
    Records (setProposal id { p with executed := true }
        { s with benjiStrategy := some p.strategy })
      (h ++ [.closed id (s.daoThreshold.getD 1)]) := by
  rw [hr.proposals] at hp
  obtain ⟨hmem,hyes,hno,hexec⟩ := proposalIn_eq_some hp
  rw [hyes] at hquorum hmajority
  rw [hno] at hmajority
  refine ⟨Polling.lawful_concat.mpr ⟨hr.lawful,hmem,?_,hquorum,hmajority⟩,?_,?_,?_⟩
  · simpa [hopen] using hexec
  · rw [Polling.polls_closed]
    exact hr.numbered
  · rw [proposalIn_closed hp,← hr.proposals]
    rfl
  · intro id' voter'
    rw [Polling.voters_closed]
    exact hr.cast id' voter'

/-- The vault is founded before anybody makes a proposal; `initialize` starts the numbering. -/
def FoundedFirst (l : Ledger σ) : Action host → Prop
  | .invoke inv => ∀ admin token, inv.call = .initializeVault admin token →
      isInitialized l.storage = true ∨ l.storage.proposalNonce = none
  | .outside _ => True

theorem Records.dispatched (hr : Records l.storage h) {call : Call} {v : Value}
    (hf : ∀ admin token, call = .initializeVault admin token →
      isInitialized l.storage = true ∨ l.storage.proposalNonce = none)
    (hv : (dispatch env call).run l = .ok v t) :
    Records t.storage (h ++ pollEvents l v call) := by
  cases call with
  | initializeVault admin token =>
    obtain ⟨_,hv,-⟩ := map_eq_ok.mp hv
    obtain ⟨hinit,rfl⟩ := initializeVault_ok hv
    have hnonce : l.storage.proposalNonce = none := by
      rcases hf admin token rfl with h1 | h1
      · exact absurd (hinit.symm.trans h1) (by decide)
      · exact h1
    have hnumbered := hr.numbered
    rw [hnonce] at hnumbered
    change Records _ (h ++ [])
    rw [List.append_nil]
    exact ⟨hr.lawful,hnumbered,hr.proposals,hr.cast⟩
  | setting setting =>
    change Records _ (h ++ [])
    rw [List.append_nil]
    cases setting with
    | daoThreshold threshold =>
      obtain ⟨_,hv,-⟩ := map_eq_ok.mp hv
      obtain ⟨_,_,_,_,rfl⟩ := adminSetting_ok.mp hv
      exact ⟨hr.lawful,hr.numbered,hr.proposals,hr.cast⟩
    | _ => exact hr.of_part (dispatch_part (by simp [Call.writes]) hv)
  | createStrategyProposal proposer strategy =>
    obtain ⟨n,hcreate,rfl⟩ := map_eq_ok.mp hv
    obtain ⟨-,-,hn,rfl⟩ := createStrategyProposal_ok.mp hcreate
    exact hr.created strategy hn
  | voteOnProposal voter id support weight =>
    obtain ⟨_,hv,-⟩ := map_eq_ok.mp hv
    obtain ⟨p,counted,-,hw,hvote,hp,hopen,ht,rfl⟩ := voteOnProposal_ok.mp hv
    exact hr.voted hw hvote hp hopen ht
  | executeStrategyProposal id =>
    obtain ⟨_,hv,-⟩ := map_eq_ok.mp hv
    obtain ⟨p,hp,hopen,hquorum,hmajority,rfl⟩ := executeStrategyProposal_ok.mp hv
    exact hr.executed hp hopen hquorum hmajority
  | _ =>
    change Records _ (h ++ [])
    rw [List.append_nil]
    exact hr.of_part (dispatch_part (by simp [Call.writes]) hv)

theorem records_step {a : Action host} (hr : Records l.storage h) (hf : FoundedFirst l a) :
    Records (step host a l).storage (h ++ observed l a) := by
  cases a with
  | outside c =>
    rw [observed,List.append_nil]
    exact hr
  | invoke inv =>
    by_cases hok : ∃ v t, (dispatch inv.env inv.call).run l = .ok v t
    · obtain ⟨v,t,hv⟩ := hok
      have hobs : observed l (.invoke inv) = pollEvents l v inv.call := by simp [observed,hv]
      rw [step_of_ok hv,hobs]
      exact hr.dispatched hf hv
    · -- a failed call is rolled back and leaves no trace
      have hsame : step host (.invoke inv) l = l :=
        (invoke_cases inv l).resolve_left fun ⟨v,hv⟩ => hok ⟨v,_,hv⟩
      have hobs : observed l (.invoke inv) = [] := by
        cases hv : (dispatch inv.env inv.call).run l with
        | ok v t => exact absurd ⟨v,t,hv⟩ hok
        | _ => simp [observed,hv]
      rw [hsame,hobs,List.append_nil]
      exact hr

theorem run_records {acts : List (Action host)}
    (hf : Runs.Along (step host) FoundedFirst (genesis chain) acts) :
    Records (runFrom host chain acts).storage (history host chain acts) := by
  let records : Ledger σ → PollHistory → Prop := fun l h => Records l.storage h
  have hstep : ∀ (l : Ledger σ) (a : Action host) (h : PollHistory), records l h →
      FoundedFirst l a → records (step host a l) (h ++ observed l a) :=
    fun _ _ _ hr hf => records_step hr hf
  have h0 : records (genesis chain) [] := records_empty
  have hend := hf.trace_invariant hstep h0
  rwa [List.nil_append] at hend

end Steps

section Enactment

def Enacts (l : Ledger σ) (a : Action host) (id : ℕ) (p : StrategyProposal) : Prop :=
  ∃ inv v t, a = .invoke inv ∧ inv.call = .executeStrategyProposal id ∧
    (dispatch inv.env inv.call).run l = .ok v t ∧ l.storage.proposal id = some p

theorem Enacts.enacted {a : Action host} {id : ℕ} {p : StrategyProposal} (h : Enacts l a id p) :
    l.storage.daoThreshold.getD 1 ≤ p.yesVotes ∧ p.noVotes < p.yesVotes ∧
      (step host a l).storage.benjiStrategy = some p.strategy := by
  obtain ⟨inv,v,t,rfl,hcall,hv,hp⟩ := h
  have hstep := step_of_ok hv
  rw [hcall] at hv
  obtain ⟨_,hexec,-⟩ := map_eq_ok.mp hv
  obtain ⟨p',hp',-,hquorum,hmajority,ht⟩ := executeStrategyProposal_ok.mp hexec
  obtain rfl := Option.some.inj (hp.symm.trans hp')
  rw [hstep,← ht]
  exact ⟨hquorum,hmajority,rfl⟩

/-- Nothing but an execution changes the strategy in force. -/
theorem benjiStrategy_kept {a : Action host} (h : ∀ id p, ¬ Enacts l a id p) :
    (step host a l).storage.benjiStrategy = l.storage.benjiStrategy := by
  rcases step_part .governance a l with hpart | ⟨inv,v,rfl,hw,hv⟩
  · exact read_of_part (f := Storage.benjiStrategy) (fun _ => rfl) hpart
  · generalize hcall : inv.call = call at hw hv
    cases call with
    | initializeVault admin token =>
      obtain ⟨_,hv,-⟩ := map_eq_ok.mp hv
      rw [(initializeVault_ok hv).2]
    | setting setting =>
      cases setting with
      | daoThreshold threshold =>
        obtain ⟨_,hv,-⟩ := map_eq_ok.mp hv
        obtain ⟨_,_,_,_,ht⟩ := adminSetting_ok.mp hv
        rw [← ht]
      | _ => simp [Call.writes] at hw
    | createStrategyProposal proposer strategy =>
      obtain ⟨_,hv,-⟩ := map_eq_ok.mp hv
      obtain ⟨-,-,-,ht⟩ := createStrategyProposal_ok.mp hv
      rw [← ht]
      rfl
    | voteOnProposal voter id support weight =>
      obtain ⟨_,hv,-⟩ := map_eq_ok.mp hv
      obtain ⟨_,_,-,-,-,-,-,-,ht⟩ := voteOnProposal_ok.mp hv
      rw [← ht]
      rfl
    | executeStrategyProposal id =>
      obtain ⟨_,hexec,-⟩ := map_eq_ok.mp hv
      obtain ⟨p,hp,-⟩ := executeStrategyProposal_ok.mp hexec
      have hrun : (dispatch inv.env inv.call).run l = .ok v (step host (.invoke inv) l) := by
        rw [hcall]
        exact hv
      exact absurd ⟨inv,v,_,rfl,hcall,hrun,hp⟩ (h id p)
    | _ => simp [Call.writes] at hw

end Enactment

/-- Proposals, votes and executions in any order by anybody: no id is used twice, the stored
tallies are the sums of the positive weights of the ballots cast, one for each voter, a
proposal is executed at most once and its record is final from then on, and the strategy in
force is that of the last proposal executed, which had its quorum and its majority. -/
theorem governance_safe {acts : List (Action host)}
    (hf : Runs.Along (step host) FoundedFirst (genesis chain) acts) :
    let s := (runFrom host chain acts).storage
    let h := history host chain acts
    (Polling.polls h).SortedLT ∧
    (∀ id p, s.proposal id = some p →
      p.yesVotes = Polling.votes h id true ∧ p.noVotes = Polling.votes h id false) ∧
    (∀ b ∈ Polling.ballots h, 0 < b.weight) ∧
    (∀ id, (Polling.voters h id).Nodup ∧
      ∀ voter, (s.vote id voter).isSome = true ↔ voter ∈ Polling.voters h id) ∧
    (Polling.closedPolls h).Nodup ∧
    (∀ before rest, acts = before ++ rest →
      ∀ id ∈ Polling.closedPolls (history host chain before),
        s.proposal id = (runFrom host chain before).storage.proposal id) ∧
    ((s.benjiStrategy = none ∧
        Runs.Along (step host) (fun l a => ∀ id p, ¬ Enacts l a id p) (genesis chain) acts) ∨
      ∃ before a rest id p, acts = before ++ a :: rest ∧
        Enacts (runFrom host chain before) a id p ∧
        Runs.Along (step host) (fun l a => ∀ id p, ¬ Enacts l a id p)
          (runFrom host chain (before ++ [a])) rest ∧
        (runFrom host chain before).storage.daoThreshold.getD 1 ≤ p.yesVotes ∧
        p.noVotes < p.yesVotes ∧ s.benjiStrategy = some p.strategy) := by
  intro s h
  have hr : Records s h := run_records hf
  refine ⟨hr.lawful.polls_sortedLT,?_,fun b hb => hr.lawful.weight_pos hb,?_,
    hr.lawful.closedPolls_nodup,?_,?_⟩
  · intro id p hp
    rw [hr.proposals] at hp
    obtain ⟨-,hyes,hno,-⟩ := proposalIn_eq_some hp
    exact ⟨hyes,hno⟩
  · intro id
    refine ⟨hr.lawful.voters_nodup id,fun voter => ?_⟩
    rw [hr.cast]
    split_ifs with hvoter <;> simp [hvoter]
  · rintro before rest rfl id hid
    have hbefore : Records _ _ := run_records (Runs.along_append.mp hf).1
    have hh : h = history host chain before ++
        Runs.trace (step host) observed (runFrom host chain before) rest :=
      Runs.trace_append _ _ _
    have hlawful := hr.lawful
    rw [hh] at hlawful
    rw [hr.proposals,hbefore.proposals,hh]
    exact proposalIn_final hlawful hid
  · let enacts : Ledger σ → Action host → Prop := fun l a => ∃ id p, Enacts l a id p
    have hno : ∀ (l : Ledger σ) (a : Action host), ¬ enacts l a → ∀ id p, ¬ Enacts l a id p :=
      fun l a hn id p he => hn ⟨id,p,he⟩
    have hkeep : ∀ (l : Ledger σ) (a : Action host), ¬ enacts l a →
        (step host a l).storage.benjiStrategy = l.storage.benjiStrategy :=
      fun l a hn => benjiStrategy_kept (hno l a hn)
    rcases Runs.last_writer (step host) (fun l => l.storage.benjiStrategy) hkeep
        (genesis chain) acts with
      ⟨hnone,hbenji⟩ | ⟨before,a,rest,rfl,⟨id,p,henacts⟩,hrest,hbenji⟩
    · exact Or.inl ⟨hbenji,hnone.mono hno⟩
    · obtain ⟨hquorum,hmajority,hstrategy⟩ := henacts.enacted
      have hrun : runFrom host chain (before ++ [a]) = step host a (runFrom host chain before) :=
        Runs.run_concat _ _ _ _
      refine Or.inr ⟨before,a,rest,id,p,rfl,henacts,?_,hquorum,hmajority,hbenji.trans hstrategy⟩
      rw [hrun]
      exact hrest.mono hno

section Runs

open SimpleHost

/-- Alice's proposal passes with her own weight against Bob's. -/
def votedRun : List (Action (simpleHost id 0)) :=
  [signed admin 0 (.initializeVault admin token),
    signed admin 1 (.setting (.daoThreshold 10)),
    signed alice 2 (.createStrategyProposal alice strategyA),
    signed alice 3 (.voteOnProposal alice 1 true 12),
    signed bob 4 (.voteOnProposal bob 1 false 7),
    signed bob 5 (.executeStrategyProposal 1)]

theorem votedRun_safe :
    (∀ n p, (runFrom (simpleHost id 0) bank votedRun).storage.proposal n = some p →
      p.yesVotes = Polling.votes (history (simpleHost id 0) bank votedRun) n true ∧
        p.noVotes = Polling.votes (history (simpleHost id 0) bank votedRun) n false) ∧
      (runFrom (simpleHost id 0) bank votedRun).storage.benjiStrategy = some strategyA := by
  have hf : Runs.Along (step (simpleHost id 0)) FoundedFirst (genesis bank) votedRun :=
    ⟨fun _ _ _ => Or.inr rfl,nofun,nofun,nofun,nofun,nofun,trivial⟩
  obtain ⟨-,htallies,-⟩ := governance_safe hf
  exact ⟨htallies,by decide⟩

end Runs

end YieldVault
