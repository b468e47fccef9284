import Mathlib.Data.List.Basic

/-!
# Runs of a labelled transition relation

`Run step s es t`: from `s` the relation `step`, labelled by the events `es` in order, leads
to `t`. What one step preserves a run preserves (`Run.invariant`), and a simulation of steps
by runs of another relation lifts to runs (`Run.simulate`).
-/

namespace Lib

variable {σ τ ε δ : Type*}

/-- The states a relation leads to under a list of events. -/
inductive Run (step : σ → ε → σ → Prop) : σ → List ε → σ → Prop
  | nil {s : σ} : Run step s [] s
  | cons {s t u : σ} {e : ε} {es : List ε} :
      step s e t → Run step t es u → Run step s (e :: es) u

namespace Run

variable {step step' : σ → ε → σ → Prop} {s t u : σ} {e : ε} {es fs : List ε}

theorem single (h : step s e t) : Run step s [e] t := cons h nil

theorem append (h : Run step s es t) (h' : Run step t fs u) : Run step s (es ++ fs) u := by
  induction h with
  | nil => exact h'
  | cons hs _ ih => exact cons hs (ih h')

theorem mono (hstep : ∀ s e t, step s e t → step' s e t) (h : Run step s es t) :
    Run step' s es t := by
  induction h with
  | nil => exact nil
  | cons hs _ ih => exact cons (hstep _ _ _ hs) ih

/-- A function that turns steps into steps turns runs into runs. -/
theorem map {stepA : τ → ε → τ → Prop} {f : σ → τ}
    (hstep : ∀ s e t, step s e t → stepA (f s) e (f t)) (h : Run step s es t) :
    Run stepA (f s) es (f t) := by
  induction h with
  | nil => exact nil
  | cons hs _ ih => exact cons (hstep _ _ _ hs) ih

/-- The same run with other names for the events. -/
theorem relabel {step'' : σ → δ → σ → Prop} {f : ε → δ}
    (hstep : ∀ s t, ∀ e ∈ es, step s e t → step'' s (f e) t) (h : Run step s es t) :
    Run step'' s (es.map f) t := by
  induction h with
  | nil => exact nil
  | cons hs _ ih =>
    exact cons (hstep _ _ _ List.mem_cons_self hs) (ih fun s t e he =>
      hstep s t e (List.mem_cons_of_mem _ he))

/-- The same run with each event beside the state in which it happens. -/
theorem withStates (h : Run step s es t) : ∃ zs : List (σ × ε), zs.map Prod.snd = es ∧
    Run (fun s z t => z.1 = s ∧ step s z.2 t) s zs t := by
  induction h with
  | nil => exact ⟨[], rfl, nil⟩
  | @cons s _ _ e _ hs _ ih =>
    obtain ⟨zs, hzs, hrun⟩ := ih
    refine ⟨(s, e) :: zs, ?_, cons ⟨rfl, hs⟩ hrun⟩
    rw [List.map_cons, hzs]

/-- What every step preserves holds at the end of a run. -/
theorem invariant {I : σ → Prop} (hstep : ∀ s e t, I s → step s e t → I t)
    (h : Run step s es t) (hs : I s) : I t := by
  induction h with
  | nil => exact hs
  | cons hstep' _ ih => exact ih (hstep _ _ _ hs hstep')

/-- What every step preserves may be used to say more of the steps. -/
theorem strengthen {I : σ → Prop} (hstep : ∀ s e t, I s → step s e t → step' s e t ∧ I t)
    (h : Run step s es t) (hs : I s) : Run step' s es t := by
  induction h with
  | nil => exact nil
  | cons hstep' _ ih =>
    obtain ⟨h', hI⟩ := hstep _ _ _ hs hstep'
    exact cons h' (ih hI)

/-- What holds after a run whose steps cannot bring it about holds all the time. -/
theorem backward {P : σ → Prop} (hstep : ∀ s t, ∀ e ∈ es, step s e t → P t → P s)
    (h : Run step s es t) (ht : P t) : P s ∧ Run (fun s e t => step s e t ∧ P s ∧ P t) s es t := by
  induction h with
  | nil => exact ⟨ht, nil⟩
  | @cons s t u e es hs _ ih =>
    obtain ⟨hP, hrun⟩ := ih (fun s t e he => hstep s t e (List.mem_cons_of_mem _ he)) ht
    have hP' := hstep s t e List.mem_cons_self hs hP
    exact ⟨hP', cons ⟨hs, hP', hP⟩ hrun⟩

/-- A property that a step keeps exactly under a condition holds at the end of a run if and only if
it held at its start and every step meets the condition. -/
theorem keeps_iff {I P : σ → Prop} {G : σ → ε → Prop}
    (hdet : ∀ s e t u, step s e t → step s e u → t = u)
    (hstep : ∀ s e t, I s → step s e t → I t ∧ (P t ↔ P s ∧ G s e))
    (h : Run step s es t) (hs : I s) :
    P t ↔ P s ∧ Run (fun s e t => step s e t ∧ G s e) s es t := by
  induction h with
  | nil => exact ⟨fun hP => ⟨hP, nil⟩, fun hP => hP.1⟩
  | cons hfirst _ ih =>
    obtain ⟨hI, hiff⟩ := hstep _ _ _ hs hfirst
    rw [ih hI, hiff]
    constructor
    · rintro ⟨⟨hP, hG⟩, hrest⟩
      exact ⟨hP, cons ⟨hfirst, hG⟩ hrest⟩
    · rintro ⟨hP, hrun⟩
      cases hrun with
      | cons hfirst' hrest =>
        obtain rfl := hdet _ _ _ _ hfirst hfirst'.1
        exact ⟨⟨hP, hfirst'.2⟩, hrest⟩

/-- A split of the events splits the run. -/
theorem split (h : Run step s (es ++ fs) u) : ∃ t, Run step s es t ∧ Run step t fs u := by
  induction es generalizing s with
  | nil => exact ⟨s, nil, h⟩
  | cons e es ih =>
    cases h with
    | cons hs hrest =>
      obtain ⟨t, h1, h2⟩ := ih hrest
      exact ⟨t, cons hs h1, h2⟩

/-- If every step is matched by a run between related states, so is every run. -/
theorem simulate {T : τ → δ → τ → Prop} {R : σ → τ → Prop}
    (hstep : ∀ s e t a, R s a → step s e t → ∃ ds b, Run T a ds b ∧ R t b)
    {a : τ} (h : Run step s es t) (hR : R s a) : ∃ ds b, Run T a ds b ∧ R t b := by
  induction h generalizing a with
  | nil => exact ⟨[], a, nil, hR⟩
  | cons hs _ ih =>
    obtain ⟨ds, b, hab, hb⟩ := hstep _ _ _ _ hR hs
    obtain ⟨ds', c, hbc, hc⟩ := ih hb
    exact ⟨ds ++ ds', c, hab.append hbc, hc⟩

end Run

/-! ## Runs that are evaluated -/

/-- Execute a partial step function on a list of events. -/
def exec (f : σ → ε → Option σ) : σ → List ε → Option σ
  | s, [] => some s
  | s, e :: es =>
    match f s e with
    | none => none
    | some t => exec f t es

/-- What an execution reaches is the end of a run. -/
theorem exec_run {f : σ → ε → Option σ} {s t : σ} {es : List ε} (h : exec f s es = some t) :
    Run (fun s e t => f s e = some t) s es t := by
  induction es generalizing s with
  | nil =>
    obtain rfl := Option.some.inj h
    exact Run.nil
  | cons e es ih =>
    unfold exec at h
    split at h
    · cases h
    · rename_i s' heq
      exact Run.cons heq (ih h)

end Lib
