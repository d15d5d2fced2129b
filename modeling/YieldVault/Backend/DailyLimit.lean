import YieldVault.Backend.AllowlistGate

/-! The daily limit of withdrawals, over several servers that share the database. The sum of
the day is read before the wallet is locked and long before the withdrawal is recorded, so
the limit holds where no other withdrawal and no midnight comes in between. -/
namespace YieldVault.Backend

/-- The withdrawals of a wallet in the day from `start` on. -/
def dayRows (wallet : String) (start : ℕ) (rows : List TransactionRow) : List TransactionRow :=
  rows.filter fun row => decide (row.user = wallet ∧ row.type = .withdrawal ∧
    start ≤ row.timestamp ∧ row.timestamp < start+dayMs)

def total (rows : List TransactionRow) : ℚ := (rows.map TransactionRow.amount).sum

def reduce (decimals : DecimalArithmetic) (rows : List TransactionRow) : ℚ :=
  rows.foldl (fun sum row => decimals.plus sum row.amount) 0

/-- For every wallet and UTC day, the withdrawals are within the limit. -/
def LimitKept (cfg : VaultConfig) (rows : List TransactionRow) : Prop :=
  ∀ wallet day, total (dayRows wallet (day*dayMs) rows) ≤ cfg.dailyLimit

def getDailyLimit (raw : ℚ) : ℚ := if raw ≤ 0 then 10000 else raw

/-- The servers, their database, and for each request of theirs the day and the rows that its
check of the limit has read. -/
structure Fleet where
  servers : ℕ → VaultServer := fun _ => {}
  ledger : Ledger := {}
  checks : ℕ × ℕ → Option (ℕ × List TransactionRow) := fun _ => none

namespace Fleet

def server (i : ℕ) (f : Fleet) : VaultServer := { f.servers i with ledger := f.ledger }

def recordCheck (cfg : VaultConfig) (i : ℕ) (event : VaultEvent) (f : Fleet) :
    ℕ × ℕ → Option (ℕ × List TransactionRow) :=
  match event with
  | .proceed id .sum =>
    match (f.server i).requests id with
    | some request =>
      match request.phase with
      | .summing start => Function.update f.checks (i,id)
          (some (start,dayRows (request.wallet cfg) start f.ledger.transactions))
      | _ => f.checks
    | none => f.checks
  | _ => f.checks

def serve (cfg : VaultConfig) (event : ℕ × VaultEvent) (f : Fleet) : Fleet :=
  let s := VaultServer.serve cfg event.2 (f.server event.1)
  { servers := Function.update f.servers event.1 s
    ledger := s.ledger
    checks := f.recordCheck cfg event.1 event.2 }

def runFrom (cfg : VaultConfig) (events : List (ℕ × VaultEvent)) : Fleet :=
  Runs.run (serve cfg) events {}

/-- No override is active for a wallet whose request is checked. -/
def NoOverride (cfg : VaultConfig) (f : Fleet) (event : ℕ × VaultEvent) : Prop :=
  ∀ id now request, event.2 = .proceed id (.evaluate now) →
    (f.server event.1).requests id = some request →
    overrideActive (f.server event.1).overrides (request.wallet cfg) now = false

/-- A check adds up exactly, and the withdrawals of the wallet in the day in which one is
recorded are still those that its check has read. -/
structure Undisturbed (cfg : VaultConfig) (f : Fleet) (event : ℕ × VaultEvent) : Prop where
  exact : ∀ id now request start rows, event.2 = .proceed id (.evaluate now) →
    (f.server event.1).requests id = some request → f.checks (event.1,id) = some (start,rows) →
    cfg.decimals.plus (reduce cfg.decimals rows) request.body.amount =
      total rows+request.body.amount
  same : ∀ id timestamp now request txHash,
    event.2 = .proceed id (.inserted timestamp now (.ok ())) →
    (f.server event.1).requests id = some request → request.route = .withdrawals →
    request.phase = .operating (.inserting txHash) →
    f.checks (event.1,id) = some (getUtcDayStart timestamp,
      dayRows (request.wallet cfg) (getUtcDayStart timestamp) f.ledger.transactions)

end Fleet

namespace VaultServer

variable {cfg : VaultConfig} {s : VaultServer}

inductive Proceeds (cfg : VaultConfig) (s : VaultServer) (progress : Progress)
    (old : VaultRequest) : RequestPhase → Prop
  | stays : Proceeds cfg s progress old old.phase
  | summed (start : ℕ) (phase : old.phase = .summing start) (sum : progress = .sum) :
      Proceeds cfg s progress old (.evaluating start
        (sumWithdrawalsForDay cfg (old.wallet cfg) start s.ledger.transactions))
  | entered (now start : ℕ) (used : ℚ) (next : RequestPhase)
      (phase : old.phase = .evaluating start used) (evaluate : progress = .evaluate now)
      (within : withinDailyLimit cfg s.overrides now used old.body = true)
      (inside : next = .operating .submitting ∨ next = .awaiting) :
      Proceeds cfg s progress old next
  | operated (step next : OperationStep) (phase : old.phase = .operating step) :
      Proceeds cfg s progress old (.operating next)
  | answered (response : VaultResponse) : Proceeds cfg s progress old (.answered response)

theorem phase_inside (answer : Answer OperationResult) :
    answer.phase = .operating .submitting ∨ answer.phase = .awaiting := by
  cases answer with
  | started => exact Or.inl rfl
  | _ => exact Or.inr rfl

theorem proceed_proceeds {id : ℕ} {progress : Progress} {old new : VaultRequest}
    (found : s.requests id = some old)
    (h : (s.proceed cfg id progress old).requests id = some new) :
    new.route = old.route ∧ new.body = old.body ∧ Proceeds cfg s progress old new.phase := by
  have hstays : s.requests id = some new →
      new.route = old.route ∧ new.body = old.body ∧ Proceeds cfg s progress old new.phase := by
    intro hsame
    obtain rfl := Option.some.inj (found.symm.trans hsame)
    exact ⟨rfl,rfl,.stays⟩
  unfold proceed at h
  split at h
  · next start hphase =>
    obtain rfl := eq_of_put h
    exact ⟨rfl,rfl,.summed start hphase rfl⟩
  · next start used now hphase =>
    unfold evaluate at h
    split_ifs at h with hwithin
    · have hentered := entered_enter cfg s now id old
      revert hentered h
      generalize enter cfg now id old s = t
      intro h hentered
      cases hentered with
      | locked busy =>
        obtain rfl := eq_of_put h
        exact ⟨rfl,rfl,.answered _⟩
      | keyless free key =>
        obtain rfl := eq_of_put h
        exact ⟨rfl,rfl,.entered now start used _ hphase rfl hwithin (Or.inl rfl)⟩
      | keyed free key hkey answer store execute =>
        obtain rfl := eq_of_put h
        exact ⟨rfl,rfl,.entered now start used _ hphase rfl hwithin (phase_inside answer)⟩
    · obtain rfl := eq_of_put h
      exact ⟨rfl,rfl,.answered _⟩
  · unfold settle at h
    split at h <;> exact hstays h
  · unfold release at h
    split at h <;> exact hstays h
  · unfold respond at h
    split at h
    · obtain rfl := eq_of_put h
      exact ⟨rfl,rfl,.answered _⟩
    · exact hstays h
  · have hphase : old.phase = .operating _ := ‹_›
    split at h
    · obtain rfl := eq_of_put h
      exact ⟨rfl,rfl,.operated _ _ hphase⟩
    · exact hstays h
  · exact hstays h

theorem arrive_withdrawal {now : ℕ} {route : VaultRoute} {headers : VaultHeaders}
    {body : VaultOperationBody} {signed : Except SignedActionError Unit} {flagEnabled : Bool}
    {request : VaultRequest}
    (h : (s.arrive cfg now route headers body signed flagEnabled).requests s.next = some request)
    (hroute : request.route = .withdrawals) :
    (∃ start, request.phase = .summing start) ∨ ∃ response, request.phase = .answered response := by
  unfold arrive at h
  split at h
  · obtain rfl := eq_of_put h
    exact Or.inr ⟨_,rfl⟩
  · next body' hgates =>
    dsimp only at h
    split_ifs at h with hwithdrawal
    · obtain rfl := eq_of_put h
      exact Or.inl ⟨_,rfl⟩
    · have hentered := entered_enter cfg { s with next := s.next+1 } now s.next
        ⟨route,headers.key,body',.awaiting,none,none⟩
      revert hentered h
      generalize enter cfg now s.next ⟨route,headers.key,body',.awaiting,none,none⟩
        { s with next := s.next+1 } = t
      intro h hentered
      have hsame : request.route = route := by
        cases hentered with
        | locked busy =>
          obtain rfl := eq_of_put h
          rfl
        | keyless free key =>
          obtain rfl := eq_of_put h
          rfl
        | keyed free key hkey answer store execute =>
          obtain rfl := eq_of_put h
          rfl
      exact absurd (hsame.symm.trans hroute) hwithdrawal

theorem transactions_serve (cfg : VaultConfig) (s : VaultServer) (event : VaultEvent) :
    (serve cfg event s).ledger.transactions = s.ledger.transactions ∨
      ∃ id timestamp now request txHash,
        event = .proceed id (.inserted timestamp now (.ok ())) ∧
        s.requests id = some request ∧ request.phase = .operating (.inserting txHash) ∧
        (serve cfg event s).ledger.transactions = s.ledger.transactions ++
          [⟨request.wallet cfg,request.body.amount,request.route.type,"completed",
            request.body.referralCode,timestamp⟩] := by
  have hchange := change_serve cfg s event
  revert hchange
  generalize serve cfg event s = t
  intro hchange
  cases hchange with
  | settings _ _ keyed wallets ledger requests next => exact Or.inl (by rw [ledger])
  | deleted _ deletion kind => exact Or.inl rfl
  | gated _ id next request comes target outside accepted => exact Or.inl rfl
  | entered _ now id next request comes enters =>
    have hentered := entered_enter cfg { s with next := next } now id request
    revert hentered
    generalize enter cfg now id request { s with next := next } = t
    intro hentered
    cases hentered <;> exact Or.inl rfl
  | operated id progress request step step' ledger found operating operate =>
    unfold VaultServer.operate at operate
    split at operate
    · cases operate
      exact Or.inl rfl
    · cases operate
      exact Or.inl rfl
    · next timestamp now _ txHash =>
      cases operate
      exact Or.inr ⟨id,timestamp,now,request,txHash,rfl,found,operating,rfl⟩
    · cases operate
      exact Or.inl rfl
    · cases operate
      exact Or.inl rfl
    · cases operate
      exact Or.inl rfl
    · cases operate
      exact Or.inl rfl
    · cases operate
  | settled id now request found =>
    unfold settle
    split <;> exact Or.inl rfl
  | released id request found =>
    unfold release
    split <;> exact Or.inl rfl
  | responded id request response found settlement => exact Or.inl rfl

end VaultServer

/-- What the check of a withdrawal has read stands behind its phase. -/
def VaultRequest.Checked (cfg : VaultConfig) (check : Option (ℕ × List TransactionRow))
    (request : VaultRequest) : Prop :=
  request.route = .withdrawals →
    match request.phase with
    | .evaluating start used => ∃ rows, check = some (start,rows) ∧ used = reduce cfg.decimals rows
    | .operating _ => ∃ start rows, check = some (start,rows) ∧
        total rows+request.body.amount ≤ cfg.dailyLimit
    | _ => True

namespace Fleet

variable {cfg : VaultConfig} {f : Fleet} {event : ℕ × VaultEvent}

structure Within (cfg : VaultConfig) (f : Fleet) : Prop where
  checked : ∀ i id request, (f.server i).requests id = some request →
    request.Checked cfg (f.checks (i,id))
  kept : LimitKept cfg f.ledger.transactions

theorem requests_serve_self (i : ℕ) (event : VaultEvent) :
    ((f.serve cfg (i,event)).server i).requests =
      (VaultServer.serve cfg event (f.server i)).requests := by
  unfold serve server
  simp

theorem requests_serve_of_ne {i j : ℕ} (event : VaultEvent) (hne : j ≠ i) :
    ((f.serve cfg (i,event)).server j).requests = (f.server j).requests := by
  unfold serve server
  simp [hne]

theorem recordCheck_eq {i : ℕ} {event : VaultEvent} {at' : ℕ × ℕ}
    (h : ∀ id request start, event = .proceed id .sum → (f.server i).requests id = some request →
      request.phase = .summing start → at' ≠ (i,id)) :
    f.recordCheck cfg i event at' = f.checks at' := by
  unfold recordCheck
  cases event with
  | proceed id progress =>
    cases progress with
    | sum =>
      cases found : (f.server i).requests id with
      | none => simp only [found]
      | some request =>
        cases phase : request.phase with
        | summing start =>
          simp only [found,phase]
          exact Function.update_of_ne (h id request start rfl found phase) _ _
        | _ => simp only [found,phase]
    | _ => rfl
  | _ => rfl

theorem recordCheck_self {i id start : ℕ} {request : VaultRequest}
    (found : (f.server i).requests id = some request) (phase : request.phase = .summing start) :
    f.recordCheck cfg i (.proceed id .sum) (i,id) =
      some (start,dayRows (request.wallet cfg) start f.ledger.transactions) := by
  unfold recordCheck
  simp only [found,phase]
  exact Function.update_self _ _ _

theorem checked_proceed {i id : ℕ} {progress : Progress} {old new : VaultRequest}
    (hno : NoOverride cfg f (i,.proceed id progress))
    (hexact : Undisturbed cfg f (i,.proceed id progress))
    (hold : (f.server i).requests id = some old) (h : old.Checked cfg (f.checks (i,id)))
    (found : ((f.server i).proceed cfg id progress old).requests id = some new) :
    new.Checked cfg (f.recordCheck cfg i (.proceed id progress) (i,id)) := by
  obtain ⟨hroute,hbody,hproceeds⟩ := VaultServer.proceed_proceeds hold found
  intro hwithdrawal
  have holdRoute : old.route = .withdrawals := hroute ▸ hwithdrawal
  have hchecked := h holdRoute
  -- only a request that is to be summed gets another check
  have hsame : (∀ start, old.phase ≠ .summing start) →
      f.recordCheck cfg i (.proceed id progress) (i,id) = f.checks (i,id) := by
    intro hphase
    refine recordCheck_eq ?_
    rintro other request start hevent hrequest hsumming hat
    obtain rfl : id = other := congrArg Prod.snd hat
    obtain rfl := Option.some.inj (hold.symm.trans hrequest)
    exact hphase start hsumming
  generalize hnew : new.phase = phase at hproceeds
  cases hproceeds with
  | stays =>
    cases hphase : old.phase with
    | summing start => trivial
    | evaluating start used =>
      rw [hsame (by simp [hphase])]
      rw [hphase] at hchecked
      exact hchecked
    | operating step =>
      rw [hsame (by simp [hphase]),hbody]
      rw [hphase] at hchecked
      exact hchecked
    | awaiting => trivial
    | answered response => trivial
  | summed start hphase hsum =>
    subst hsum
    exact ⟨_,recordCheck_self hold hphase,rfl⟩
  | entered now start used next hphase hevaluate hwithin hinside =>
    subst hevaluate
    rw [hphase] at hchecked
    obtain ⟨rows,hrows,rfl⟩ := hchecked
    rw [hsame (by simp [hphase]),hbody]
    have hoverride := hno id now old rfl hold
    have hlimit : total rows+old.body.amount ≤ cfg.dailyLimit := by
      rw [← hexact.exact id now old start rows rfl hold hrows]
      unfold withinDailyLimit at hwithin
      rw [VaultRequest.wallet] at hoverride
      rw [hoverride,Bool.false_or] at hwithin
      exact of_decide_eq_true hwithin
    rcases hinside with rfl | rfl
    · exact ⟨start,rows,hrows,hlimit⟩
    · trivial
  | operated step next hphase =>
    rw [hsame (by simp [hphase]),hbody]
    rw [hphase] at hchecked
    exact hchecked
  | answered response => trivial

theorem Within.checked_serve (h : f.Within cfg) (hno : NoOverride cfg f event)
    (hund : Undisturbed cfg f event) (j id : ℕ) (request : VaultRequest)
    (found : ((f.serve cfg event).server j).requests id = some request) :
    request.Checked cfg ((f.serve cfg event).checks (j,id)) := by
  obtain ⟨i,event⟩ := event
  by_cases hserver : j = i
  · subst hserver
    rw [requests_serve_self] at found
    by_cases htarget : event.target (f.server j) = some id
    · cases event with
      | arrive now route headers body signed flagEnabled =>
        obtain rfl : (f.server j).next = id := Option.some.inj htarget
        intro hwithdrawal
        rcases VaultServer.arrive_withdrawal found hwithdrawal with ⟨start,hphase⟩ | ⟨response,hphase⟩
        · rw [hphase]
          trivial
        · rw [hphase]
          trivial
      | proceed other progress =>
        obtain rfl : other = id := Option.some.inj htarget
        cases hold : (f.server j).requests other with
        | none =>
          rw [VaultServer.serve,hold] at found
          exact absurd (hold.symm.trans found) (by simp)
        | some old =>
          rw [VaultServer.serve,hold] at found
          exact checked_proceed hno hund hold (h.checked j other old hold) found
      | _ => cases htarget
    · rw [VaultServer.requests_serve cfg htarget] at found
      have hsame : f.recordCheck cfg j event (j,id) = f.checks (j,id) := by
        refine recordCheck_eq ?_
        rintro other old start rfl - - hat
        exact htarget (congrArg some (congrArg Prod.snd hat).symm)
      change request.Checked cfg (f.recordCheck cfg j event (j,id))
      exact hsame.symm ▸ h.checked j id request found
  · rw [requests_serve_of_ne event hserver] at found
    have hsame : f.recordCheck cfg i event (j,id) = f.checks (j,id) :=
      recordCheck_eq fun other old start _ _ _ hat => hserver (congrArg Prod.fst hat)
    change request.Checked cfg (f.recordCheck cfg i event (j,id))
    exact hsame.symm ▸ h.checked j id request found

end Fleet

section Days

variable {wallet : String} {rows : List TransactionRow} {row : TransactionRow}

theorem getUtcDayStart_eq {day timestamp : ℕ} (hstart : day*dayMs ≤ timestamp)
    (hend : timestamp < day*dayMs+dayMs) : getUtcDayStart timestamp = day*dayMs := by
  have hday : timestamp/dayMs = day :=
    Nat.div_eq_of_lt_le hstart (by rw [Nat.succ_mul]; exact hend)
  rw [getUtcDayStart,hday]

theorem dayRows_concat (start : ℕ) : dayRows wallet start (rows ++ [row]) =
    dayRows wallet start rows ++ dayRows wallet start [row] :=
  List.filter_append _ _

theorem total_concat : total (rows ++ [row]) = total rows+row.amount := by
  simp [total]

/-- A row that is added keeps the limit, if it is within that of its own day. -/
theorem LimitKept.concat {cfg : VaultConfig} (h : LimitKept cfg rows)
    (hrow : row.type = .withdrawal →
      total (dayRows row.user (getUtcDayStart row.timestamp) rows)+row.amount ≤ cfg.dailyLimit) :
    LimitKept cfg (rows ++ [row]) := by
  intro wallet day
  rw [dayRows_concat]
  by_cases hcounts : row.user = wallet ∧ row.type = .withdrawal ∧
      day*dayMs ≤ row.timestamp ∧ row.timestamp < day*dayMs+dayMs
  · obtain ⟨rfl,hwithdrawal,hstart,hend⟩ := hcounts
    have hself : dayRows row.user (day*dayMs) [row] = [row] :=
      List.filter_cons_of_pos (by simp [hwithdrawal,hstart,hend])
    rw [hself,total_concat,← getUtcDayStart_eq hstart hend]
    exact hrow hwithdrawal
  · have hnone : dayRows wallet (day*dayMs) [row] = [] :=
      List.filter_cons_of_neg (by simpa using hcounts)
    rw [hnone,List.append_nil]
    exact h wallet day

end Days

namespace Fleet

variable {cfg : VaultConfig} {f : Fleet} {event : ℕ × VaultEvent}

theorem Within.kept_serve (h : f.Within cfg) (hund : Undisturbed cfg f event) :
    LimitKept cfg (f.serve cfg event).ledger.transactions := by
  obtain ⟨i,event⟩ := event
  rcases VaultServer.transactions_serve cfg (f.server i) event with hsame |
    ⟨id,timestamp,now,request,txHash,rfl,found,hphase,hadded⟩
  · exact hsame.symm ▸ h.kept
  · refine hadded.symm ▸ h.kept.concat fun hwithdrawal => ?_
    have hroute : request.route = .withdrawals := by
      cases hroute : request.route <;> simp_all [VaultRoute.type]
    have hchecked := h.checked i id request found hroute
    rw [hphase] at hchecked
    obtain ⟨start,rows,hrows,hlimit⟩ := hchecked
    have hsame := hund.same id timestamp now request txHash rfl found hroute hphase
    obtain ⟨rfl,rfl⟩ := Prod.mk.inj (Option.some.inj (hrows.symm.trans hsame))
    exact hlimit

theorem Within.serve (h : f.Within cfg) (hno : NoOverride cfg f event)
    (hund : Undisturbed cfg f event) : (f.serve cfg event).Within cfg :=
  ⟨h.checked_serve hno hund,h.kept_serve hund⟩

theorem Within.initial (raw : ℚ) (hlimit : cfg.dailyLimit = getDailyLimit raw) :
    ({} : Fleet).Within cfg := by
  refine ⟨by rintro _ _ _ ⟨⟩,fun wallet day => ?_⟩
  change 0 ≤ cfg.dailyLimit
  rw [hlimit,getDailyLimit]
  split_ifs with hraw
  · norm_num
  · exact (not_le.mp hraw).le

/-- The withdrawals of each wallet and day are within the limit, where no other withdrawal
and no midnight comes between the check of one and its recording. -/
theorem limit_kept (raw : ℚ) (hlimit : cfg.dailyLimit = getDailyLimit raw)
    (events : List (ℕ × VaultEvent)) (hno : Runs.Along (serve cfg) (NoOverride cfg) {} events)
    (hund : Runs.Along (serve cfg) (Undisturbed cfg) {} events) :
    LimitKept cfg (runFrom cfg events).ledger.transactions := by
  have hwithin : (runFrom cfg events).Within cfg :=
    (hno.and hund).invariant (fun _ _ h hguard => h.serve hguard.1 hguard.2)
      (Within.initial raw hlimit)
  exact hwithin.kept

/-- A withdrawal of Alice's arrives at a server and is checked. -/
def aliceChecked (server id : ℕ) (amount : ℚ) : List (ℕ × VaultEvent) :=
  [(server,.arrive 0 .withdrawals {} (aliceBody amount) (.ok ()) false),(server,.proceed id .sum)]

/-- The rest of it, up to its row. -/
def aliceRecorded (server id : ℕ) : List (ℕ × VaultEvent) :=
  [(server,.proceed id (.evaluate 0)),(server,.proceed id (.submitted true (.ok "hash"))),
    (server,.proceed id (.inserted 0 0 (.ok ())))]

/-- Two withdrawals at two servers, one after the other, that make up the limit. -/
def oneByOne : List (ℕ × VaultEvent) :=
  aliceChecked 0 0 6000 ++ aliceRecorded 0 0 ++ aliceChecked 1 0 4000 ++ aliceRecorded 1 0

theorem reduce_exactDecimals (rows : List TransactionRow) :
    reduce exactDecimals rows = total rows := by
  simp [reduce,total,exactDecimals,List.sum_eq_foldl,List.foldl_map]

theorem undisturbed_checked (f : Fleet) (server id : ℕ) (amount : ℚ) :
    Runs.Along (serve openConfig) (Undisturbed openConfig) f (aliceChecked server id amount) := by
  refine ⟨⟨?_,?_⟩,⟨?_,?_⟩,trivial⟩ <;> rintro _ _ _ _ _ ⟨⟩

/-- All depends on what the recording finds. -/
theorem undisturbed_recorded {f : Fleet} {server id : ℕ} (h : ∀ g request,
      Runs.run (serve openConfig) ((aliceRecorded server id).take 2) f = g →
      (g.server server).requests id = some request → g.checks (server,id) =
        some (0,dayRows (request.wallet openConfig) 0 g.ledger.transactions)) :
    Runs.Along (serve openConfig) (Undisturbed openConfig) f (aliceRecorded server id) := by
  refine ⟨⟨?_,?_⟩,⟨?_,?_⟩,⟨?_,?_⟩,trivial⟩
  · rintro _ _ request start rows ⟨⟩ - -
    exact congrArg (· + request.body.amount) (reduce_exactDecimals rows)
  · rintro _ _ _ _ _ ⟨⟩
  · rintro _ _ _ _ _ ⟨⟩
  · rintro _ _ _ _ _ ⟨⟩
  · rintro _ _ _ _ _ ⟨⟩
  · rintro _ _ _ request _ ⟨⟩ hrequest - -
    exact h _ request rfl hrequest

theorem aliceRecorded_kept :
    LimitKept openConfig (runFrom openConfig oneByOne).ledger.transactions := by
  refine limit_kept 10000 (by norm_num [openConfig,getDailyLimit]) _ ?_ ?_
  · refine ⟨?_,?_,?_,?_,?_,?_,?_,?_,?_,?_,trivial⟩
    all_goals rintro _ _ _ ⟨⟩
    all_goals
      intro _
      with_unfolding_all rfl
  · refine Runs.along_append.mpr ⟨Runs.along_append.mpr ⟨Runs.along_append.mpr
      ⟨undisturbed_checked _ _ _ _,undisturbed_recorded ?_⟩,undisturbed_checked _ _ _ _⟩,
      undisturbed_recorded ?_⟩
    · rintro _ request rfl hrequest
      have hwallet : request.wallet openConfig = aliceWallet := by
        obtain rfl : ⟨.withdrawals,none,aliceBody 6000,_,none,some true⟩ = request := by
          refine Option.some.inj (Eq.trans ?_ hrequest)
          with_unfolding_all rfl
        rfl
      rw [hwallet]
      with_unfolding_all rfl
    · rintro _ request rfl hrequest
      have hwallet : request.wallet openConfig = aliceWallet := by
        obtain rfl : ⟨.withdrawals,none,aliceBody 4000,_,none,some true⟩ = request := by
          refine Option.some.inj (Eq.trans ?_ hrequest)
          with_unfolding_all rfl
        rfl
      rw [hwallet]
      with_unfolding_all rfl

/-- Two withdrawals at one server, the second of which is checked before the first is
recorded and enters the handler once that has been answered. -/
def twoAtOnce : List (ℕ × VaultEvent) :=
  aliceChecked 0 0 6000 ++ aliceChecked 0 1 6000 ++ aliceRecorded 0 0 ++
    [(0,.proceed 0 (.updated 0 "tx" (.ok ()))),(0,.proceed 0 .respond)] ++ aliceRecorded 0 1

theorem twoAtOnce_exceed : ¬ ∀ (cfg : VaultConfig) (raw : ℚ) (events : List (ℕ × VaultEvent)),
    cfg.dailyLimit = getDailyLimit raw → Runs.Along (serve cfg) (NoOverride cfg) {} events →
    LimitKept cfg (runFrom cfg events).ledger.transactions := by
  intro h
  have hno : Runs.Along (serve openConfig) (NoOverride openConfig) {} twoAtOnce := by
    refine ⟨?_,?_,?_,?_,?_,?_,?_,?_,?_,?_,?_,?_,trivial⟩
    all_goals rintro _ _ _ ⟨⟩
    all_goals
      intro _
      with_unfolding_all rfl
  have hkept := h openConfig 10000 twoAtOnce (by norm_num [openConfig,getDailyLimit]) hno
    aliceWallet 0
  have hrows : dayRows aliceWallet (0*dayMs) (runFrom openConfig twoAtOnce).ledger.transactions =
      List.replicate 2 ⟨aliceWallet,6000,.withdrawal,"completed",none,0⟩ := by
    with_unfolding_all rfl
  rw [hrows] at hkept
  norm_num [total,openConfig] at hkept

end Fleet

end YieldVault.Backend
