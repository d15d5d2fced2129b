import YieldVault.Runs

/-! A machine that keeps a log, and a view of its state that follows the log: what a
step changes in the view is what the entries it writes say. Along a run the view is then
the log replayed on the view of the start. The log is kept newest first. -/
namespace Projections

variable {S A E V : Type*}

/-- The view after the entries of a log, the oldest applied first. -/
def replay (apply : E → V → V) (es : List E) (v : V) : V := es.foldr apply v

section Replay

variable {apply : E → V → V} {es fs : List E} {v : V}

@[simp] theorem replay_nil : replay apply [] v = v := rfl

@[simp] theorem replay_cons {e : E} : replay apply (e :: es) v = apply e (replay apply es v) := rfl

@[simp] theorem replay_append :
    replay apply (es ++ fs) v = replay apply es (replay apply fs v) := by
  apply List.foldr_append

/-- Entries that change nothing can be left out. -/
theorem replay_silent (h : ∀ e ∈ es, ∀ w, apply e w = w) : replay apply es v = v := by
  induction es with
  | nil => rfl
  | cons e es ih =>
    rw [replay_cons,ih fun f hf => h f (List.mem_cons_of_mem _ hf)]
    apply h e List.mem_cons_self

end Replay

/-- The entries written from `s` to `t` say how the view has changed. -/
def Follows (log : S → List E) (view : S → V) (apply : E → V → V) (s t : S) : Prop :=
  ∃ es, log t = es ++ log s ∧ view t = replay apply es (view s)

section Steps

variable {log : S → List E} {view : S → V} {apply : E → V → V} {s t u : S}

theorem Follows.refl (s : S) : Follows log view apply s s := ⟨[],rfl,rfl⟩

theorem Follows.trans (h : Follows log view apply s t) (h' : Follows log view apply t u) :
    Follows log view apply s u := by
  obtain ⟨es,hlog,hview⟩ := h
  obtain ⟨fs,hlog',hview'⟩ := h'
  refine ⟨fs ++ es,?_,?_⟩
  · rw [hlog',hlog,List.append_assoc]
  · rw [hview',hview,replay_append]

/-- A step that writes nothing and shows nothing new. -/
theorem Follows.still (hlog : log t = log s) (hview : view t = view s) :
    Follows log view apply s t := ⟨[],hlog,hview⟩

theorem Follows.silent {es : List E} (hs : ∀ e ∈ es, ∀ w, apply e w = w)
    (hlog : log t = es ++ log s) (hview : view t = view s) : Follows log view apply s t :=
  ⟨es,hlog,hview.trans (replay_silent hs).symm⟩

/-- From an empty log on, the view is the whole log replayed. -/
theorem Follows.replayed (h : Follows log view apply s t) (h0 : log s = []) :
    view t = replay apply (log t) (view s) := by
  obtain ⟨es,hlog,hview⟩ := h
  rw [hview,hlog,h0,List.append_nil]

/-- What holds of every step of a machine with an invariant holds of its runs. -/
theorem Follows.run {step : A → S → S} {inv : S → Prop} (hinv : ∀ s a, inv s → inv (step a s))
    (hstep : ∀ s a, inv s → Follows log view apply s (step a s)) (h : inv s) (acts : List A) :
    Follows log view apply s (Runs.run step acts s) := by
  induction acts generalizing s with
  | nil => exact Follows.refl s
  | cons a acts ih => exact (hstep s a h).trans (ih (hinv s a h))

end Steps

end Projections
