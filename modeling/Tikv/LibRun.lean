/-!
# LibRun — runs of a step relation

A system is a relation `step s a s'` between a state, a label and the state after it.  `Run step ok` is its finite runs
all of whose steps are taken where `ok` holds of the state before the step and its label; `Run step always` is every
run.  An invariant that one guarded step preserves holds at the end of every guarded run (`Run.invariant`); one that a
step keeps exactly when it is guarded holds all along a run exactly when the run is guarded (`invariant_prefix_iff`).  A loop
whose rounds can fail relates its ends by what its rounds compose to (`foldlM_relates`).
-/
namespace Lib

variable {σ α : Type}

def always (_ : σ) (_ : α) : Prop := True

/-- **The finite runs of `step`** whose every step meets `ok`. -/
inductive Run (step : σ → α → σ → Prop) (ok : σ → α → Prop) : σ → List α → σ → Prop
  | nil (s : σ) : Run step ok s [] s
  | cons {s s' t : σ} {a : α} {l : List α} (hok : ok s a) (hstep : step s a s') (htail : Run step ok s' l t) :
      Run step ok s (a :: l) t

namespace Run

variable {step : σ → α → σ → Prop} {ok : σ → α → Prop}

theorem invariant {I : σ → Prop} (hI : ∀ s a s', I s → ok s a → step s a s' → I s') {s t : σ} {l : List α}
    (h : Run step ok s l t) (hs : I s) : I t := by
  induction h with
  | nil s => exact hs
  | cons hok hstep _ ih => exact ih (hI _ _ _ hs hok hstep)

/-- **Two guards that are the same where the invariant holds** allow the same runs. -/
theorem guard_iff {ok' : σ → α → Prop} {I : σ → Prop} (hok : ∀ s a, I s → (ok s a ↔ ok' s a))
    (hI : ∀ s a s', I s → ok' s a → step s a s' → I s') {t : σ} : ∀ (l : List α) {s : σ}, I s →
      (Run step ok s l t ↔ Run step ok' s l t)
  | [], _, _ => ⟨fun h => by cases h; exact .nil _, fun h => by cases h; exact .nil _⟩
  | a :: l, s, hs => by
    constructor
    · rintro (_ | ⟨ha, hstep, htail⟩)
      have ha' := (hok s a hs).1 ha
      exact .cons ha' hstep ((guard_iff hok hI l (hI s a _ hs ha' hstep)).1 htail)
    · rintro (_ | ⟨ha', hstep, htail⟩)
      exact .cons ((hok s a hs).2 ha') hstep ((guard_iff hok hI l (hI s a _ hs ha' hstep)).2 htail)

/-- **Labels that a step function takes one after another** are a run. -/
theorem of_foldlM {f : σ → α → Option σ} : ∀ {l : List α} {s t : σ}, l.foldlM f s = some t →
    Run (fun s a s' => f s a = some s') always s l t
  | [], s, _, rfl => .nil s
  | a :: l, s, t, h => by
    obtain ⟨s', hs, ht⟩ := Option.bind_eq_some_iff.1 h
    exact .cons trivial hs (of_foldlM ht)

end Run

/-! ## Systems whose step is a function -/

def stepOf (f : σ → α → σ) (s : σ) (a : α) (s' : σ) : Prop := s' = f s a

/-- **An invariant kept exactly by the guarded steps** holds after every part of a run exactly when all of its steps are
guarded. -/
theorem invariant_prefix_iff {f : σ → α → σ} {ok : σ → α → Prop} {I : σ → Prop}
    (hI : ∀ s a, I s → (I (f s a) ↔ ok s a)) : ∀ (l : List α) (s : σ), I s →
      ((∀ l', l' <+: l → I (l'.foldl f s)) ↔ Run (stepOf f) ok s l (l.foldl f s))
  | [], s, hs => by
    refine ⟨fun _ => .nil s, fun _ l' hl' => ?_⟩
    rw [List.prefix_nil.1 hl']; exact hs
  | a :: l, s, hs => by
    constructor
    · intro h
      have ha : I (f s a) := h [a] ⟨l, rfl⟩
      refine .cons ((hI s a hs).1 ha) rfl ((invariant_prefix_iff hI l (f s a) ha).1 fun l' hl' => ?_)
      exact h (a :: l') (List.cons_prefix_cons.2 ⟨rfl, hl'⟩)
    · intro h l' hl'
      cases h with
      | cons hok hstep htail =>
        subst hstep
        have ha : I (f s a) := (hI s a hs).2 hok
        cases l' with
        | nil => exact hs
        | cons b l' =>
          obtain ⟨rfl, htl⟩ := List.cons_prefix_cons.1 hl'
          exact (invariant_prefix_iff hI l (f s b) ha).2 htail l' htl

/-! ## Loops whose rounds can fail -/

/-- **The rule for a loop that went through**: each round relates its two states by the items its element stands for, and the
relation composes. -/
theorem foldlM_relates {β ε : Type} {f : σ → α → Except ε σ} {g : α → List β} {R : σ → List β → σ → Prop}
    (hnil : ∀ s, R s [] s) (happend : ∀ s t u l l', R s l t → R t l' u → R s (l ++ l') u)
    (hf : ∀ s a t, f s a = .ok t → R s (g a) t) {l : List α} {s t : σ} (h : l.foldlM f s = .ok t) :
    R s (l.flatMap g) t := by
  induction l generalizing s with
  | nil =>
    obtain rfl := Except.ok.inj h
    exact hnil _
  | cons a l ih =>
    rw [List.foldlM_cons] at h
    cases hs : f s a with
    | error e =>
      rw [hs] at h
      cases h
    | ok s' =>
      rw [hs] at h
      exact happend s s' t (g a) (l.flatMap g) (hf s a s' hs) (ih h)

end Lib
