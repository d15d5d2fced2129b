import Mathlib.Tactic

/-! The computations of a contract runtime: a call ends with a value or with a
typed error, both of which keep the state reached so far, or it traps. Undoing
a failed call is the business of whoever runs it, so an error that is handled
inside the call leaves its effects behind, as it does in the runtime. -/

inductive Outcome (S E α : Type) where
  | ok (value : α) (state : S)
  | err (error : E) (state : S)
  | panic (message : String)

def Outcome.isOk {S E α : Type} : Outcome S E α → Bool
  | .ok _ _ => true
  | _ => false

theorem Outcome.isOk_iff {S E α : Type} {o : Outcome S E α} :
    o.isOk = true ↔ ∃ a s, o = .ok a s := by
  cases o <;> simp [isOk]

structure Contract (S E α : Type) where
  run : S → Outcome S E α

namespace Contract

variable {S E α β : Type}

instance : Monad (Contract S E) where
  pure a := ⟨fun s => .ok a s⟩
  bind x f := ⟨fun s => match x.run s with
    | .ok a t => (f a).run t
    | .err e t => .err e t
    | .panic m => .panic m⟩

@[ext] theorem ext {x y : Contract S E α} (h : ∀ s, x.run s = y.run s) : x = y := by
  cases x; cases y; congr; exact funext h

def read (f : S → α) : Contract S E α := ⟨fun s => .ok (f s) s⟩
def write (f : S → S) : Contract S E Unit := ⟨fun s => .ok () (f s)⟩
def trap (message : String) : Contract S E α := ⟨fun _ => .panic message⟩

def failWith (error : E) : Contract S E α := ⟨fun s => .err error s⟩

/-- Return the typed error unless the condition holds. -/
def ensure (c : Prop) [Decidable c] (error : E) : Contract S E Unit :=
  ⟨fun s => if c then .ok () s else .err error s⟩

/-- Trap unless the condition holds. -/
def demand (c : Prop) [Decidable c] (message : String) : Contract S E Unit :=
  ⟨fun s => if c then .ok () s else .panic message⟩

/-- Unwrap an optional value, trapping on `none`. -/
def expect (o : Option α) (message : String) : Contract S E α :=
  ⟨fun s => match o with | some a => .ok a s | none => .panic message⟩

/-- Unwrap an optional value, returning the typed error on `none`. -/
def okOr (o : Option α) (error : E) : Contract S E α :=
  ⟨fun s => match o with | some a => .ok a s | none => .err error s⟩

/-- Run a pure computation whose only failure is a trap. -/
def trapping (x : Except String α) : Contract S E α :=
  ⟨fun s => match x with | .ok a => .ok a s | .error m => .panic m⟩

/-- Hand a typed error to the caller as a value; the state is not restored. -/
def attempt (x : Contract S E α) : Contract S E (Except E α) :=
  ⟨fun s => match x.run s with
    | .ok a t => .ok (.ok a) t
    | .err e t => .ok (.error e) t
    | .panic m => .panic m⟩

@[simp] theorem run_pure (a : α) (s : S) : (pure a : Contract S E α).run s = .ok a s := rfl

theorem run_bind (x : Contract S E α) (f : α → Contract S E β) (s : S) :
    (x >>= f).run s = match x.run s with
      | .ok a t => (f a).run t
      | .err e t => .err e t
      | .panic m => .panic m := rfl

theorem id_map_run (x : Contract S E α) : id <$> x = x := by
  ext s
  change (x >>= fun a => pure (id a)).run s = x.run s
  rw [run_bind]
  cases x.run s <;> rfl

theorem bind_assoc_run {γ : Type} (x : Contract S E α) (f : α → Contract S E β)
    (g : β → Contract S E γ) : x >>= f >>= g = x >>= fun a => f a >>= g := by
  ext s
  simp only [run_bind]
  cases x.run s <;> rfl

instance : LawfulMonad (Contract S E) :=
  LawfulMonad.mk' _ id_map_run (fun _ _ => rfl) bind_assoc_run

section Success

variable {s t : S} {b : β}

/-- A sequence succeeds when its first part does and the rest does from there; the
rules for the primitive steps come first. -/
@[simp low] theorem bind_eq_ok {x : Contract S E α} {f : α → Contract S E β} :
    (x >>= f).run s = .ok b t ↔ ∃ a u, x.run s = .ok a u ∧ (f a).run u = .ok b t := by
  rw [run_bind]
  cases h : x.run s <;> simp

@[simp] theorem pure_eq_ok {a : β} : (pure a : Contract S E β).run s = .ok b t ↔ a = b ∧ s = t := by
  simp

@[simp] theorem map_eq_ok {x : Contract S E α} {f : α → β} :
    (f <$> x).run s = .ok b t ↔ ∃ a, x.run s = .ok a t ∧ f a = b := by
  change (x >>= fun a => pure (f a)).run s = .ok b t ↔ _
  simp only [bind_eq_ok,pure_eq_ok]
  constructor
  · rintro ⟨a,u,hx,hf,rfl⟩
    exact ⟨a,hx,hf⟩
  · rintro ⟨a,hx,hf⟩
    exact ⟨a,t,hx,hf,rfl⟩

@[simp] theorem trap_ne_ok {m : String} : ¬ (trap m : Contract S E β).run s = .ok b t := by
  simp [trap]

@[simp] theorem failWith_ne_ok {e : E} : ¬ (failWith e : Contract S E β).run s = .ok b t := by
  simp [failWith]

@[simp] theorem read_bind {f : S → α} {k : α → Contract S E β} :
    (read f >>= k).run s = (k (f s)).run s := rfl

@[simp] theorem write_bind {f : S → S} {k : Unit → Contract S E β} :
    (write f >>= k).run s = (k ()).run (f s) := rfl

@[simp] theorem write_run {f : S → S} : (write f : Contract S E Unit).run s = .ok () (f s) := rfl

@[simp] theorem ensure_bind {c : Prop} [Decidable c] {e : E} {k : Unit → Contract S E β} :
    (ensure c e >>= k).run s = if c then (k ()).run s else .err e s := by
  rw [run_bind]
  by_cases h : c <;> simp [ensure,h]

@[simp] theorem demand_bind {c : Prop} [Decidable c] {m : String} {k : Unit → Contract S E β} :
    (demand c m >>= k).run s = if c then (k ()).run s else .panic m := by
  rw [run_bind]
  by_cases h : c <;> simp [demand,h]

@[simp] theorem expect_bind_eq_ok {o : Option α} {m : String} {k : α → Contract S E β} :
    (expect o m >>= k).run s = .ok b t ↔ ∃ a, o = some a ∧ (k a).run s = .ok b t := by
  rw [run_bind]
  cases o <;> simp [expect]

@[simp] theorem expect_eq_ok {o : Option β} {m : String} :
    (expect o m : Contract S E β).run s = .ok b t ↔ o = some b ∧ s = t := by
  cases o <;> simp [expect]

@[simp] theorem okOr_bind_eq_ok {o : Option α} {e : E} {k : α → Contract S E β} :
    (okOr o e >>= k).run s = .ok b t ↔ ∃ a, o = some a ∧ (k a).run s = .ok b t := by
  rw [run_bind]
  cases o <;> simp [okOr]

@[simp] theorem ensure_eq_ok {c : Prop} [Decidable c] {e : E} {u : Unit} :
    (ensure c e : Contract S E Unit).run s = .ok u t ↔ c ∧ s = t := by
  by_cases h : c <;> simp [ensure,h]

@[simp] theorem demand_eq_ok {c : Prop} [Decidable c] {m : String} {u : Unit} :
    (demand c m : Contract S E Unit).run s = .ok u t ↔ c ∧ s = t := by
  by_cases h : c <;> simp [demand,h]

@[simp] theorem trapping_bind_eq_ok {x : Except String α} {k : α → Contract S E β} :
    (trapping x >>= k).run s = .ok b t ↔ ∃ a, x = .ok a ∧ (k a).run s = .ok b t := by
  rw [run_bind]
  cases x <;> simp [trapping]

@[simp] theorem ite_eq_ok {c : Prop} [Decidable c] {x y : Outcome S E β} :
    (if c then x else y) = .ok b t ↔ (c ∧ x = .ok b t) ∨ (¬c ∧ y = .ok b t) := by
  by_cases h : c <;> simp [h]

end Success

section Failure

variable {s t : S} {e : E}

@[simp low] theorem bind_eq_err {x : Contract S E α} {f : α → Contract S E β} :
    (x >>= f).run s = .err e t ↔ x.run s = .err e t ∨
      ∃ a u, x.run s = .ok a u ∧ (f a).run u = .err e t := by
  rw [run_bind]
  cases h : x.run s <;> simp

@[simp] theorem map_eq_err {x : Contract S E α} {f : α → β} :
    (f <$> x).run s = .err e t ↔ x.run s = .err e t := by
  change (x >>= fun a => pure (f a)).run s = .err e t ↔ _
  rw [bind_eq_err]
  simp

@[simp] theorem trap_ne_err {m : String} : ¬ (trap m : Contract S E β).run s = .err e t := by
  simp [trap]

@[simp] theorem failWith_eq_err {e' : E} :
    (failWith e' : Contract S E β).run s = .err e t ↔ e' = e ∧ s = t := by
  simp [failWith]

@[simp] theorem ensure_eq_err {c : Prop} [Decidable c] {e' : E} :
    (ensure c e' : Contract S E Unit).run s = .err e t ↔ ¬c ∧ e' = e ∧ s = t := by
  by_cases h : c <;> simp [ensure,h]

@[simp] theorem demand_ne_err {c : Prop} [Decidable c] {m : String} :
    ¬ (demand c m : Contract S E Unit).run s = .err e t := by
  by_cases h : c <;> simp [demand,h]

@[simp] theorem expect_ne_err {o : Option β} {m : String} :
    ¬ (expect o m : Contract S E β).run s = .err e t := by
  cases o <;> simp [expect]

@[simp] theorem expect_bind_eq_err {o : Option α} {m : String} {k : α → Contract S E β} :
    (expect o m >>= k).run s = .err e t ↔ ∃ a, o = some a ∧ (k a).run s = .err e t := by
  rw [run_bind]
  cases o <;> simp [expect]

@[simp] theorem okOr_bind_eq_err {o : Option α} {e' : E} {k : α → Contract S E β} :
    (okOr o e' >>= k).run s = .err e t ↔
      (o = none ∧ e' = e ∧ s = t) ∨ ∃ a, o = some a ∧ (k a).run s = .err e t := by
  rw [run_bind]
  cases o <;> simp [okOr]

@[simp] theorem trapping_bind_eq_err {x : Except String α} {k : α → Contract S E β} :
    (trapping x >>= k).run s = .err e t ↔ ∃ a, x = .ok a ∧ (k a).run s = .err e t := by
  rw [run_bind]
  cases x <;> simp [trapping]

@[simp] theorem ite_eq_err {c : Prop} [Decidable c] {x y : Outcome S E β} :
    (if c then x else y) = .err e t ↔ (c ∧ x = .err e t) ∨ (¬c ∧ y = .err e t) := by
  by_cases h : c <;> simp [h]

/-- Where an attempted call ends well: with its value, or with its error and the state it left. -/
@[simp] theorem attempt_bind_eq_ok {x : Contract S E α} {k : Except E α → Contract S E β} {b : β} :
    (attempt x >>= k).run s = .ok b t ↔
      (∃ a u, x.run s = .ok a u ∧ (k (.ok a)).run u = .ok b t) ∨
        ∃ e u, x.run s = .err e u ∧ (k (.error e)).run u = .ok b t := by
  rw [run_bind]
  cases h : x.run s <;> simp [attempt,h]

end Failure

section Trap

variable {s : S} {m : String}

@[simp low] theorem bind_eq_panic {x : Contract S E α} {f : α → Contract S E β} :
    (x >>= f).run s = .panic m ↔ x.run s = .panic m ∨
      ∃ a u, x.run s = .ok a u ∧ (f a).run u = .panic m := by
  rw [run_bind]
  cases h : x.run s <;> simp

@[simp] theorem expect_eq_panic {o : Option β} {m' : String} :
    (expect o m' : Contract S E β).run s = .panic m ↔ o = none ∧ m' = m := by
  cases o <;> simp [expect]

@[simp] theorem expect_bind_eq_panic {o : Option α} {m' : String} {k : α → Contract S E β} :
    (expect o m' >>= k).run s = .panic m ↔
      (o = none ∧ m' = m) ∨ ∃ a, o = some a ∧ (k a).run s = .panic m := by
  rw [run_bind]
  cases o <;> simp [expect]

@[simp] theorem okOr_bind_eq_panic {o : Option α} {e : E} {k : α → Contract S E β} :
    (okOr o e >>= k).run s = .panic m ↔ ∃ a, o = some a ∧ (k a).run s = .panic m := by
  rw [run_bind]
  cases o <;> simp [okOr]

@[simp] theorem demand_eq_panic {c : Prop} [Decidable c] {m' : String} :
    (demand c m' : Contract S E Unit).run s = .panic m ↔ ¬c ∧ m' = m := by
  by_cases h : c <;> simp [demand,h]

@[simp] theorem trapping_bind_eq_panic {x : Except String α} {k : α → Contract S E β} :
    (trapping x >>= k).run s = .panic m ↔
      x = .error m ∨ ∃ a, x = .ok a ∧ (k a).run s = .panic m := by
  rw [run_bind]
  cases x <;> simp [trapping]

@[simp] theorem ite_eq_panic {c : Prop} [Decidable c] {x y : Outcome S E β} :
    (if c then x else y) = .panic m ↔ (c ∧ x = .panic m) ∨ (¬c ∧ y = .panic m) := by
  by_cases h : c <;> simp [h]

end Trap

@[simp] theorem ite_bind {c : Prop} [Decidable c] {x y : Contract S E α} {k : α → Contract S E β} :
    (if c then x else y) >>= k = if c then x >>= k else y >>= k := by
  by_cases h : c <;> simp [h]

@[simp] theorem run_dite {c : Prop} [Decidable c] {x : c → Contract S E α}
    {y : ¬c → Contract S E α} {s : S} :
    (if h : c then x h else y h).run s = if h : c then (x h).run s else (y h).run s := by
  by_cases h : c <;> simp [h]

@[simp] theorem run_ite {c : Prop} [Decidable c] {x y : Contract S E α} {s : S} :
    (if c then x else y).run s = if c then x.run s else y.run s := by
  by_cases h : c <;> simp [h]

end Contract
