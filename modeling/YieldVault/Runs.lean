import Mathlib.Tactic

/-! Runs of a deterministic machine that is fed a list of actions. A run is
guarded when every action is taken from a state that satisfies its guard; an
invariant that guarded steps preserve holds wherever a guarded run leads. -/
namespace Runs

variable {S A : Type*} (step : A → S → S)

def run (acts : List A) (s : S) : S := acts.foldl (fun t a => step a t) s

/-- Every action of the list meets the guard in the state it is taken from. -/
def Along (guard : S → A → Prop) : S → List A → Prop
  | _, [] => True
  | s, a::as => guard s a ∧ Along guard (step a s) as

@[simp] theorem run_nil (s : S) : run step [] s = s := rfl

@[simp] theorem run_cons (a : A) (as : List A) (s : S) :
    run step (a::as) s = run step as (step a s) := rfl

theorem run_append (as bs : List A) (s : S) :
    run step (as ++ bs) s = run step bs (run step as s) := by
  simp [run,List.foldl_append]

@[simp] theorem run_concat (as : List A) (a : A) (s : S) :
    run step (as ++ [a]) s = step a (run step as s) := by
  simp [run_append]

variable {step}

theorem Along.mono {guard guard' : S → A → Prop} (h : ∀ s a, guard s a → guard' s a)
    {s : S} {as : List A} (ha : Along step guard s as) : Along step guard' s as := by
  induction as generalizing s with
  | nil => trivial
  | cons a as ih => exact ⟨h _ _ ha.1,ih ha.2⟩

theorem Along.and {guard guard' : S → A → Prop} {s : S} {as : List A}
    (h : Along step guard s as) (h' : Along step guard' s as) :
    Along step (fun s a => guard s a ∧ guard' s a) s as := by
  induction as generalizing s with
  | nil => trivial
  | cons a as ih => exact ⟨⟨h.1,h'.1⟩,ih h.2 h'.2⟩

theorem along_append {guard : S → A → Prop} {s : S} {as bs : List A} :
    Along step guard s (as ++ bs) ↔
      Along step guard s as ∧ Along step guard (run step as s) bs := by
  induction as generalizing s with
  | nil => simp [Along]
  | cons a as ih => simp [Along,ih,and_assoc]

theorem along_of_forall_mem {guard : S → A → Prop} {as : List A} (h : ∀ a ∈ as, ∀ s, guard s a)
    (s : S) : Along step guard s as := by
  induction as generalizing s with
  | nil => trivial
  | cons a as ih =>
    exact ⟨h a List.mem_cons_self s,ih (fun b hb => h b (List.mem_cons_of_mem _ hb)) _⟩

/-- The induction behind every statement about runs: an invariant carried by
guarded steps is carried by guarded runs. -/
theorem Along.invariant {guard : S → A → Prop} {inv : S → Prop}
    (hstep : ∀ s a, inv s → guard s a → inv (step a s)) {s : S} {as : List A}
    (ha : Along step guard s as) (h : inv s) : inv (run step as s) := by
  induction as generalizing s with
  | nil => exact h
  | cons a as ih => exact ih ha.2 (hstep s a h ha.1)

/-- Where an invariant holds along a guarded run, so does every guard it implies. -/
theorem Along.of_invariant {guard guard' : S → A → Prop} {inv : S → Prop}
    (hstep : ∀ s a, inv s → guard s a → inv (step a s))
    (himp : ∀ s a, inv s → guard s a → guard' s a) {s : S} {as : List A}
    (ha : Along step guard s as) (h : inv s) : Along step guard' s as := by
  induction as generalizing s with
  | nil => trivial
  | cons a as ih => exact ⟨himp s a h ha.1,ih ha.2 (hstep s a h ha.1)⟩

theorem invariant {inv : S → Prop} (hstep : ∀ s a, inv s → inv (step a s))
    {s : S} (as : List A) (h : inv s) : inv (run step as s) := by
  induction as generalizing s with
  | nil => exact h
  | cons a as ih => exact ih (hstep s a h)

theorem along_iff {guard : S → A → Prop} {inv P : S → Prop} (hinv : ∀ s a, inv s → inv (step a s))
    (hstep : ∀ s a, inv s → (P (step a s) ↔ P s ∧ guard s a)) {s : S} (as : List A) (h : inv s) :
    P (run step as s) ↔ P s ∧ Along step guard s as := by
  induction as generalizing s with
  | nil => exact (and_iff_left trivial).symm
  | cons a as ih =>
    rw [run_cons,ih (hinv s a h),hstep s a h,and_assoc]
    rfl

/-- Relations between the first and the last state of a guarded run. -/
theorem Along.relate {guard : S → A → Prop} {inv : S → Prop} {R : S → S → Prop}
    (hrefl : ∀ s, inv s → R s s) (htrans : ∀ s t u, R s t → R t u → R s u)
    (hstep : ∀ s a, inv s → guard s a → inv (step a s) ∧ R s (step a s)) {s : S} {as : List A}
    (ha : Along step guard s as) (h : inv s) : R s (run step as s) := by
  induction as generalizing s with
  | nil => exact hrefl s h
  | cons a as ih =>
    obtain ⟨hi,hr⟩ := hstep s a h ha.1
    exact htrans _ _ _ hr (ih ha.2 hi)

/-- Either no action of a run is of the given kind, or there is a last one. -/
theorem exists_last (kind : S → A → Prop) (s : S) (as : List A) :
    Along step (fun t a => ¬ kind t a) s as ∨
      ∃ before a after, as = before ++ a :: after ∧ kind (run step before s) a ∧
        Along step (fun t a => ¬ kind t a) (step a (run step before s)) after := by
  induction as generalizing s with
  | nil => exact Or.inl trivial
  | cons a as ih =>
    rcases ih (step a s) with hno | ⟨before,b,after,rfl,hkind,hrest⟩
    · by_cases h : kind s a
      · exact Or.inr ⟨[],a,as,rfl,h,hno⟩
      · exact Or.inl ⟨h,hno⟩
    · exact Or.inr ⟨a :: before,b,after,rfl,hkind,hrest⟩

section Writers

variable {V : Type*} {kind : S → A → Prop}

/-- What only actions of one kind change stays the same without them. -/
theorem Along.kept (f : S → V) (hkeep : ∀ s a, ¬ kind s a → f (step a s) = f s) {s : S}
    {as : List A}
    (ha : Along step (fun t a => ¬ kind t a) s as) : f (run step as s) = f s := by
  induction as generalizing s with
  | nil => rfl
  | cons a as ih => exact (ih ha.2).trans (hkeep s a ha.1)

variable (step)

/-- A value that only actions of one kind change is the initial one or what the last
action of that kind left. -/
theorem last_writer (f : S → V) (hkeep : ∀ s a, ¬ kind s a → f (step a s) = f s) (s : S)
    (as : List A) :
    Along step (fun t a => ¬ kind t a) s as ∧ f (run step as s) = f s ∨
      ∃ before a after, as = before ++ a :: after ∧ kind (run step before s) a ∧
        Along step (fun t a => ¬ kind t a) (step a (run step before s)) after ∧
        f (run step as s) = f (step a (run step before s)) := by
  rcases exists_last kind s as with hnone | ⟨before,a,after,rfl,hkind,hrest⟩
  · exact Or.inl ⟨hnone,hnone.kept f hkeep⟩
  · refine Or.inr ⟨before,a,after,rfl,hkind,hrest,?_⟩
    rw [run_append,run_cons]
    exact hrest.kept f hkeep

end Writers

theorem positions {as bs cs ds : List A} {a b : A} (h : as ++ a :: bs = cs ++ b :: ds) :
    (cs = as ∧ b = a) ∨ (∃ mid, cs = as ++ a :: mid) ∨ ∃ mid, as = cs ++ b :: mid := by
  rcases List.append_eq_append_iff.mp h with ⟨es,rfl,hes⟩ | ⟨es,rfl,hes⟩
  · cases es with
    | nil => exact Or.inl ⟨List.append_nil _,(List.cons.inj hes).1.symm⟩
    | cons e es =>
      obtain ⟨rfl,-⟩ := List.cons.inj hes
      exact Or.inr (Or.inl ⟨es,rfl⟩)
  · cases es with
    | nil => exact Or.inl ⟨(List.append_nil _).symm,(List.cons.inj hes).1⟩
    | cons e es =>
      obtain ⟨rfl,-⟩ := List.cons.inj hes
      exact Or.inr (Or.inr ⟨es,rfl⟩)

/-- What does not hold at first and holds in the end has come to hold at some action. -/
theorem turning_point (P : S → Prop) {s : S} {as : List A} (h0 : ¬ P s) (h : P (run step as s)) :
    ∃ before a after, as = before ++ a :: after ∧ ¬ P (run step before s) ∧
      P (step a (run step before s)) := by
  induction as generalizing s with
  | nil => exact absurd h h0
  | cons a as ih =>
    by_cases h1 : P (step a s)
    · exact ⟨[],a,as,rfl,h0,h1⟩
    · obtain ⟨before,b,after,rfl,hbefore,hb⟩ := ih h1 h
      exact ⟨a :: before,b,after,rfl,hbefore,hb⟩

section Once

variable {K : S → A → Prop} {I L : S → Prop}

/-- What an action of one kind sets and every action keeps is set ever after. -/
theorem latched (hinv : ∀ s a, I s → I (step a s))
    (htrip : ∀ s a, I s → K s a → L (step a s))
    (hkeep : ∀ s a, I s → L s → L (step a s)) {s : S} (hs : I s) {as bs : List A} {a : A}
    (ha : K (run step as s) a) : L (run step (as ++ a :: bs) s) := by
  have h0 : I (run step as s) := invariant hinv as hs
  have hstep : ∀ t b, I t ∧ L t → I (step b t) ∧ L (step b t) :=
    fun t b h => ⟨hinv t b h.1,hkeep t b h.1 h.2⟩
  rw [run_append,run_cons]
  exact (invariant hstep bs ⟨hinv _ a h0,htrip _ a h0 ha⟩).2

/-- An action that sets a latch and needs it unset is taken at most once. -/
theorem at_most_once (hinv : ∀ s a, I s → I (step a s))
    (htrip : ∀ s a, I s → K s a → L (step a s))
    (hkeep : ∀ s a, I s → L s → L (step a s))
    (hblock : ∀ s a, I s → L s → ¬ K s a) {s : S} (hs : I s)
    {as bs cs ds : List A} {a b : A} (h : as ++ a :: bs = cs ++ b :: ds)
    (ha : K (run step as s) a) (hb : K (run step cs s) b) : cs = as ∧ b = a := by
  rcases positions h with hsame | ⟨mid,rfl⟩ | ⟨mid,rfl⟩
  · exact hsame
  · exact absurd hb (hblock _ _ (invariant hinv _ hs) (latched hinv htrip hkeep hs ha))
  · exact absurd ha (hblock _ _ (invariant hinv _ hs) (latched hinv htrip hkeep hs hb))

end Once

section Trace

variable {O : Type*} (step) (observe : S → A → List O)

/-- What is observed along a run, oldest first. -/
def trace : S → List A → List O
  | _, [] => []
  | s, a::as => observe s a ++ trace (step a s) as

variable {step observe}

theorem trace_append (s : S) (as bs : List A) :
    trace step observe s (as ++ bs) =
      trace step observe s as ++ trace step observe (run step as s) bs := by
  induction as generalizing s with
  | nil => rfl
  | cons a as ih => simp [trace,ih]

/-- The induction for invariants that relate the state to what has been observed. -/
theorem Along.trace_invariant {guard : S → A → Prop} {inv : S → List O → Prop}
    (hstep : ∀ s a os, inv s os → guard s a → inv (step a s) (os ++ observe s a))
    {s : S} {as : List A} {os : List O} (ha : Along step guard s as) (h : inv s os) :
    inv (run step as s) (os ++ trace step observe s as) := by
  induction as generalizing s os with
  | nil => simpa [trace] using h
  | cons a as ih =>
    have h1 := ih ha.2 (hstep s a os h ha.1)
    simpa [trace] using h1

end Trace

end Runs
