import YieldVault.Backend.VaultRequests

/-! The locks of the wallets. A request that the handler has let in holds the lock of its
wallet until it has answered, and no other request of the wallet gets in meanwhile. -/
namespace YieldVault.Backend

/-- The handler has let the request in and has not answered it. -/
def RequestPhase.isInside : RequestPhase → Prop
  | .operating _ | .awaiting => True
  | _ => False

namespace VaultServer

variable {cfg : VaultConfig} {s : VaultServer}

def WalletFree (cfg : VaultConfig) (s : VaultServer) (request : VaultRequest) : Prop :=
  request.wallet cfg ≠ "" ∧ request.wallet cfg ∉ s.inFlightWallets

structure Locked (cfg : VaultConfig) (s : VaultServer) : Prop where
  held : ∀ id request, s.requests id = some request → request.phase.isInside →
    request.wallet cfg ∈ s.inFlightWallets
  alone : ∀ id id' request request', s.requests id = some request →
    s.requests id' = some request' → request.phase.isInside → request'.phase.isInside →
    request.wallet cfg = request'.wallet cfg → id = id'
  named : "" ∉ s.inFlightWallets

theorem Locked.initial (cfg : VaultConfig) : Locked cfg {} := by
  have hrequests : ∀ {id : ℕ} {request : VaultRequest},
      ({} : VaultServer).requests id ≠ some request := nofun
  exact ⟨fun _ _ h => absurd h hrequests,fun _ _ _ _ h => absurd h hrequests,
    Finset.notMem_empty _⟩

theorem Locked.keep (h : Locked cfg s) {t : VaultServer} {id : ℕ} {request : VaultRequest}
    (hwallets : t.inFlightWallets = s.inFlightWallets)
    (hrequests : t.requests = Function.update s.requests id (some request))
    (hinside : request.phase.isInside → ∃ old, s.requests id = some old ∧
      old.phase.isInside ∧ old.wallet cfg = request.wallet cfg) : Locked cfg t := by
  have hcases : ∀ {other r}, t.requests other = some r → r.phase.isInside →
      ∃ old, s.requests other = some old ∧ old.phase.isInside ∧ old.wallet cfg = r.wallet cfg := by
    intro other r hr hphase
    rw [hrequests] at hr
    rcases update_eq_some.mp hr with ⟨rfl,hsame⟩ | ⟨-,hold⟩
    · obtain rfl := Option.some.inj hsame
      exact hinside hphase
    · exact ⟨r,hold,hphase,rfl⟩
  refine ⟨fun other r hr hphase => ?_,fun a b r r' ha hb hphase hphase' hwallet => ?_,
    hwallets ▸ h.named⟩
  · obtain ⟨old,hold,hold',hsame⟩ := hcases hr hphase
    rw [hwallets,← hsame]
    exact h.held other old hold hold'
  · obtain ⟨old,hold,hinside,hsame⟩ := hcases ha hphase
    obtain ⟨old',hold',hinside',hsame'⟩ := hcases hb hphase'
    exact h.alone a b old old' hold hold' hinside hinside' (by rw [hsame,hsame',hwallet])

theorem Locked.take (h : Locked cfg s) {t : VaultServer} {id : ℕ} {request : VaultRequest}
    (hfree : s.WalletFree cfg request)
    (hwallets : t.inFlightWallets = insert (request.wallet cfg) s.inFlightWallets)
    {r : VaultRequest} (hrequests : t.requests = Function.update s.requests id (some r))
    (hwallet : r.wallet cfg = request.wallet cfg) : Locked cfg t := by
  have hother : ∀ {other r'}, s.requests other = some r' → r'.phase.isInside →
      r'.wallet cfg ≠ request.wallet cfg := by
    intro other r' hr' hphase heq
    exact hfree.2 (heq ▸ h.held other r' hr' hphase)
  refine ⟨fun other r' hr' hphase => ?_,fun a b r₁ r₂ ha hb hphase hphase' hsame => ?_,?_⟩
  · rw [hrequests] at hr'
    rw [hwallets]
    rcases update_eq_some.mp hr' with ⟨-,hnew⟩ | ⟨-,hold⟩
    · obtain rfl := Option.some.inj hnew
      rw [hwallet]
      exact Finset.mem_insert_self _ _
    · exact Finset.mem_insert_of_mem (h.held other r' hold hphase)
  · rw [hrequests] at ha hb
    rcases update_eq_some.mp ha with ⟨rfl,hnew⟩ | ⟨-,hold⟩ <;>
      rcases update_eq_some.mp hb with ⟨rfl,hnew'⟩ | ⟨-,hold'⟩
    · rfl
    · obtain rfl := Option.some.inj hnew
      exact absurd (hsame.symm.trans hwallet) (hother hold' hphase')
    · obtain rfl := Option.some.inj hnew'
      exact absurd (hsame.trans hwallet) (hother hold hphase)
    · exact h.alone a b r₁ r₂ hold hold' hphase hphase' hsame
  · rw [hwallets,Finset.mem_insert,not_or]
    exact ⟨hfree.1.symm,h.named⟩

theorem Locked.giveBack (h : Locked cfg s) {t : VaultServer} {id : ℕ} {request r : VaultRequest}
    (found : s.requests id = some request) (hinside : request.phase.isInside)
    (hwallets : t.inFlightWallets = s.inFlightWallets.erase (request.wallet cfg))
    (hrequests : t.requests = Function.update s.requests id (some r))
    (houtside : ¬ r.phase.isInside) : Locked cfg t := by
  have hcases : ∀ {other r'}, t.requests other = some r' → r'.phase.isInside →
      other ≠ id ∧ s.requests other = some r' := by
    intro other r' hr' hphase
    rw [hrequests] at hr'
    rcases update_eq_some.mp hr' with ⟨-,hnew⟩ | ⟨hne,hold⟩
    · obtain rfl := Option.some.inj hnew
      exact absurd hphase houtside
    · exact ⟨hne,hold⟩
  refine ⟨fun other r' hr' hphase => ?_,fun a b r₁ r₂ ha hb hphase hphase' hsame => ?_,
    hwallets ▸ fun hmem => h.named (Finset.mem_of_mem_erase hmem)⟩
  · obtain ⟨hne,hold⟩ := hcases hr' hphase
    rw [hwallets]
    refine Finset.mem_erase.mpr ⟨fun hsame => hne ?_,h.held other r' hold hphase⟩
    exact h.alone other id r' request hold found hphase hinside hsame
  · exact h.alone a b r₁ r₂ (hcases ha hphase).2 (hcases hb hphase').2 hphase hphase' hsame

theorem not_isInside_of_isOutside {phase : RequestPhase} (h : phase.isOutside) :
    ¬ phase.isInside := by
  cases phase <;> first | exact h.elim | exact fun hinside => hinside.elim

theorem isInside_of_settlement {request : VaultRequest} {response : VaultResponse}
    (h : s.settlement request = some response) : request.phase.isInside := by
  unfold settlement at h
  cases hphase : request.phase with
  | operating step => trivial
  | awaiting => trivial
  | _ => simp [hphase] at h

theorem Locked.serve (h : Locked cfg s) (event : VaultEvent) : Locked cfg (serve cfg event s) := by
  have hchange := change_serve cfg s event
  revert hchange
  generalize VaultServer.serve cfg event s = t
  intro hchange
  cases hchange with
  | settings _ _ keyed wallets ledger requests next =>
    refine ⟨?_,?_,wallets ▸ h.named⟩
    · rw [requests,wallets]
      exact h.held
    · rw [requests]
      exact h.alone
  | deleted _ deletion kind => exact ⟨h.held,h.alone,h.named⟩
  | gated _ id next request comes target outside accepted =>
    exact h.keep rfl rfl fun hinside => absurd hinside (not_isInside_of_isOutside outside)
  | entered _ now id next request comes enters =>
    have hentered := entered_enter cfg { s with next := next } now id request
    revert hentered
    generalize enter cfg now id request { s with next := next } = t
    intro hentered
    cases hentered with
    | locked busy => exact h.keep rfl rfl fun hinside => hinside.elim
    | keyless free key => exact h.take free rfl rfl rfl
    | keyed free key hkey answer store execute => exact h.take free rfl rfl rfl
  | operated id progress request step step' ledger found operating operate =>
    exact h.keep rfl rfl fun _ => ⟨request,found,by rw [operating]; trivial,rfl⟩
  | settled id now request found =>
    unfold settle
    split <;> exact ⟨h.held,h.alone,h.named⟩
  | released id request found =>
    unfold release
    split <;> exact ⟨h.held,h.alone,h.named⟩
  | responded id request response found settlement =>
    exact h.giveBack found (isInside_of_settlement settlement) rfl rfl fun hinside => hinside.elim

end VaultServer

end YieldVault.Backend
