import YieldVault.ContractMonad

/-! Which traps a computation can end in, read off its parts: one rule for each way to build
a computation. -/
namespace Contract

variable {S E α β : Type} {bad : String → Prop} {s : S}

/-- From the state the computation does not end in one of the bad traps. -/
def Avoids (bad : String → Prop) (x : Contract S E α) (s : S) : Prop :=
  ∀ m, bad m → x.run s ≠ .panic m

theorem avoids_of_run {x : Contract S E α} {o : Outcome S E α} (h : x.run s = o)
    (ho : ∀ m, o ≠ .panic m) : Avoids bad x s := fun m _ => h ▸ ho m

theorem avoids_panic_iff {m : String} : (∀ m', bad m' → ¬ m = m') ↔ ¬ bad m :=
  ⟨fun h hm => h m hm rfl,fun h _ hm he => h (he ▸ hm)⟩

theorem avoids_congr {x y : Contract S E α} (h : x.run s = y.run s) :
    Avoids bad x s ↔ Avoids bad y s := by
  rw [Avoids,h]
  rfl

/-- A sequence avoids the traps that its first part does and, where that succeeds, the rest. -/
theorem avoids_bind {x : Contract S E α} {f : α → Contract S E β} :
    Avoids bad (x >>= f) s ↔ Avoids bad x s ∧ ∀ a t, x.run s = .ok a t → Avoids bad (f a) t := by
  constructor
  · intro h
    refine ⟨fun m hm hx => h m hm (bind_eq_panic.mpr (Or.inl hx)),fun a t hx m hm hf => ?_⟩
    exact h m hm (bind_eq_panic.mpr (Or.inr ⟨a,t,hx,hf⟩))
  · rintro ⟨hx,hf⟩ m hm hrun
    rcases bind_eq_panic.mp hrun with hrun | ⟨a,t,hok,hrun⟩
    · exact hx m hm hrun
    · exact hf a t hok m hm hrun

theorem avoids_map {x : Contract S E α} {f : α → β} :
    Avoids bad (f <$> x) s ↔ Avoids bad x s := by
  change Avoids bad (x >>= fun a => pure (f a)) s ↔ _
  rw [avoids_bind]
  exact ⟨fun h => h.1,fun h => ⟨h,fun a t _ => avoids_of_run rfl (by simp)⟩⟩

@[simp] theorem avoids_pure {a : α} : Avoids bad (pure a : Contract S E α) s :=
  avoids_of_run rfl (by simp)

@[simp] theorem avoids_write {f : S → S} : Avoids bad (write f : Contract S E Unit) s :=
  avoids_of_run rfl (by simp)

@[simp] theorem avoids_read {f : S → α} : Avoids bad (read f : Contract S E α) s := by
  simp [Avoids,read]

@[simp] theorem avoids_failWith {e : E} : Avoids bad (failWith e : Contract S E α) s := by
  simp [Avoids,failWith]

@[simp] theorem avoids_ensure {c : Prop} [Decidable c] {e : E} :
    Avoids bad (ensure c e : Contract S E Unit) s := by
  intro m _
  by_cases h : c <;> simp [ensure,h]

@[simp] theorem avoids_trap {m : String} :
    Avoids bad (trap m : Contract S E α) s ↔ ¬ bad m := by
  simp [Avoids,trap,avoids_panic_iff]

@[simp] theorem avoids_demand {c : Prop} [Decidable c] {m : String} :
    Avoids bad (demand c m : Contract S E Unit) s ↔ (bad m → c) := by
  by_cases h : c <;> simp [Avoids,demand,h,avoids_panic_iff]

@[simp] theorem avoids_expect {o : Option α} {m : String} :
    Avoids bad (expect o m : Contract S E α) s ↔ (bad m → o.isSome = true) := by
  cases o <;> simp [Avoids,expect,avoids_panic_iff]

@[simp] theorem avoids_okOr {o : Option α} {e : E} :
    Avoids bad (okOr o e : Contract S E α) s := by
  cases o <;> simp [Avoids,okOr]

@[simp] theorem avoids_trapping {x : Except String α} :
    Avoids bad (trapping x : Contract S E α) s ↔ ∀ m, bad m → x ≠ .error m := by
  cases x <;> simp [Avoids,trapping]

theorem avoids_ite {c : Prop} [Decidable c] {x y : Contract S E α} :
    Avoids bad (if c then x else y) s ↔ (c → Avoids bad x s) ∧ (¬c → Avoids bad y s) := by
  by_cases h : c <;> simp [h]

theorem avoids_attempt {x : Contract S E α} : Avoids bad (attempt x) s ↔ Avoids bad x s := by
  refine forall₂_congr fun m _ => not_congr ?_
  cases h : x.run s <;> simp [attempt,h]

theorem avoids_attempt_bind {x : Contract S E α} {f : Except E α → Contract S E β} :
    Avoids bad (attempt x >>= f) s ↔ Avoids bad x s ∧
      (∀ a t, x.run s = .ok a t → Avoids bad (f (.ok a)) t) ∧
        ∀ e t, x.run s = .err e t → Avoids bad (f (.error e)) t := by
  rw [avoids_bind,avoids_attempt]
  cases h : x.run s <;> simp [attempt,h]

theorem avoids_bind_of_ok {x : Contract S E α} {f : α → Contract S E β} {a : α} {t : S}
    (h : x.run s = .ok a t) : Avoids bad (x >>= f) s ↔ Avoids bad (f a) t := by
  rw [Avoids,run_bind,h]
  rfl

/-- A guard in front: the rest runs where the condition holds. -/
theorem avoids_ensure_bind {c : Prop} [Decidable c] {e : E} {f : Unit → Contract S E β} :
    Avoids bad (ensure c e >>= f) s ↔ (c → Avoids bad (f ()) s) := by
  by_cases h : c <;> simp [Avoids,h]

theorem avoids_demand_bind {c : Prop} [Decidable c] {m : String} {f : Unit → Contract S E β} :
    Avoids bad (demand c m >>= f) s ↔ (bad m → c) ∧ (c → Avoids bad (f ()) s) := by
  rw [avoids_bind,avoids_demand]
  exact and_congr_right fun _ => ⟨fun h hc => h () s (demand_eq_ok.mpr ⟨hc,rfl⟩),
    fun h _ _ hok => by obtain ⟨hc,rfl⟩ := demand_eq_ok.mp hok; exact h hc⟩

theorem avoids_expect_bind {o : Option α} {m : String} {f : α → Contract S E β} :
    Avoids bad (expect o m >>= f) s ↔
      (bad m → o.isSome = true) ∧ ∀ a, o = some a → Avoids bad (f a) s := by
  rw [avoids_bind,avoids_expect]
  exact and_congr_right fun _ => ⟨fun h a ho => h a s (expect_eq_ok.mpr ⟨ho,rfl⟩),
    fun h _ _ hok => by obtain ⟨ho,rfl⟩ := expect_eq_ok.mp hok; exact h _ ho⟩

theorem avoids_okOr_bind {o : Option α} {e : E} {f : α → Contract S E β} :
    Avoids bad (okOr o e >>= f) s ↔ ∀ a, o = some a → Avoids bad (f a) s := by
  cases o <;> simp [Avoids,run_bind,okOr]

theorem avoids_trapping_bind {x : Except String α} {f : α → Contract S E β} :
    Avoids bad (trapping x >>= f) s ↔
      (∀ m, bad m → x ≠ .error m) ∧ ∀ a, x = .ok a → Avoids bad (f a) s := by
  rw [avoids_bind,avoids_trapping]
  cases x <;> simp [trapping]

end Contract
