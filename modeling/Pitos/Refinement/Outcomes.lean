import Pitos.Kernel.Events

/-!
# What a function of the kernel has done when it comes back

One lemma for each function with several ways to its end: the tests that were passed, and what was
called on which state. What a function keeps follows from this and from what its callees keep.
-/

namespace Pitos

open Lib

section

variable {s t : Kernel}

theorem kiTerminateP_ok (h : kiTerminateP s = .ok t) : s.pronti ≠ none ∧
    t = schedulatore
      { s.aggiorna s.esecuzione (fun d => { d with stato := .FREE }) with
        procCount := int32 (s.procCount - 1) } := by
  unfold kiTerminateP at h
  simp only at h
  split at h
  · cases h
  · rename_i hne
    exact ⟨hne, (Except.ok.inj h).symm⟩

theorem caricaStato_ok (h : caricaStato s = .ok t) : s.esecuzione ≠ none ∧
    t = { s with tssEsp0 := (s.des s.esecuzione).stk 0 } := by
  unfold caricaStato at h
  split at h
  · cases h
  · rename_i hne
    exact ⟨hne, (Except.ok.inj h).symm⟩

/-- What is left is the test for pending signals. -/
theorem signalsCheck_ok (h : signalsCheck s = .ok t) : s.esecuzione ≠ none ∧
    (if (s.des s.esecuzione).sigMask ≠ 0 then handlesignals s else .ok s) = .ok t := by
  unfold signalsCheck at h
  split at h
  · cases h
  · rename_i hne
    exact ⟨hne, h⟩

theorem kernelGo_ok (h : kernelGo s = .ok t) : ∃ s₁, (s₁ = s ∨ s₁ = schedulatore s) ∧
    caricaStato s₁ = .ok t := by
  unfold kernelGo at h
  by_cases he : s.esecuzione = none
  · simp only [he, if_true] at h
    split at h
    · cases h
    · exact ⟨_, Or.inr rfl, h⟩
  · simp only [he, if_false] at h
    exact ⟨s, Or.inl rfl, h⟩

/-- A turn ends with the priorities made anew, with a preemption or with nothing. -/
theorem turno_ok (h : turno s = .ok t) :
    (∃ s₁ s₂,
      (({ s with rescheduler := 0 } : Kernel).aggiorna s.esecuzione fun d =>
        { d with tickTotal := int32 (d.tickTotal + d.tick) }).inserisciPronti s.esecuzione =
          .ok s₁ ∧
      reschedule s₁ = .ok s₂ ∧ t = schedulatore s₂) ∨
    (∃ s₁,
      ({ s with rescheduler := int32 (s.rescheduler + 1) } : Kernel).inserisciPronti s.esecuzione =
        .ok s₁ ∧
      t = schedulatore s₁) ∨
    t = { s with rescheduler := int32 (s.rescheduler + 1) } := by
  unfold turno at h
  simp only at h
  split at h
  · obtain ⟨s₁, h₁, h₂⟩ := bind_ok h
    obtain ⟨s₂, h₃, h₄⟩ := bind_ok h₂
    exact Or.inl ⟨s₁, s₂, h₁, h₃, (Except.ok.inj h₄).symm⟩
  · split at h
    · obtain ⟨s₁, h₁, h₂⟩ := bind_ok h
      exact Or.inr (Or.inl ⟨s₁, h₁, (Except.ok.inj h₂).symm⟩)
    · exact Or.inr (Or.inr (Except.ok.inj h).symm)

/-! ## The queues -/

/-- The step is about the queues of processes only: the semaphores and the CPU are as before. -/
structure SoloCode (s t : Kernel) : Prop where
  dessem : t.dessem = s.dessem
  esecuzione : t.esecuzione = s.esecuzione

theorem SoloCode.refl (s : Kernel) : SoloCode s s := ⟨rfl, rfl⟩

theorem SoloCode.trans {u : Kernel} (h : SoloCode s t) (h' : SoloCode t u) : SoloCode s u :=
  ⟨h'.dessem.trans h.dessem, h'.esecuzione.trans h.esecuzione⟩

theorem inserisciPronti_code {p : DesPtr} (h : s.inserisciPronti p = .ok t) : SoloCode s t := by
  unfold Kernel.inserisciPronti at h
  split at h
  · cases h
  · obtain rfl := Except.ok.inj h
    exact ⟨rfl, rfl⟩

/-- An activation. -/
theorem kiActivatePLevel_code {f k : Word} {prec level : Int} {idx risu : Word}
    {stk : Fin 3 → Word} (h : kiActivatePLevel f k prec level idx risu stk s = .ok t) :
    SoloCode s t := by
  unfold kiActivatePLevel at h
  simp only at h
  split at h
  · obtain rfl := Except.ok.inj h
    exact ⟨rfl, rfl⟩
  · obtain ⟨s₁, h₁, h₂⟩ := bind_ok h
    obtain rfl := Except.ok.inj h₂
    refine SoloCode.trans ?_ (SoloCode.trans (inserisciPronti_code h₁) ⟨rfl, rfl⟩)
    simp only [Kernel.prepara, Kernel.aggiorna]
    split <;> exact ⟨rfl, rfl⟩

theorem reinserisci_code {pp : List Pid} (h : reinserisci s pp = .ok t) : SoloCode s t := by
  induction pp generalizing s with
  | nil =>
    obtain rfl := Except.ok.inj h
    exact .refl s
  | cons p pp ih =>
    obtain ⟨s₁, h₁, h₂⟩ := bind_ok h
    exact (inserisciPronti_code h₁).trans (ih h₂)

theorem reschedule_code (h : reschedule s = .ok t) : SoloCode s t := by
  unfold reschedule at h
  split at h
  · cases h
  · have hrest := reinserisci_code h
    exact ⟨hrest.dessem, hrest.esecuzione⟩

theorem inserimentoCodaTimer_code {z : Addr} (h : inserimentoCodaTimer z s = .ok t) :
    SoloCode s t := by
  unfold inserimentoCodaTimer at h
  split at h
  · cases h
  · simp only at h
    split at h <;> split at h <;> obtain rfl := Except.ok.inj h <;> exact ⟨rfl, rfl⟩

/-- The induction is on the turns of the loop. -/
theorem svuotaTimer_code {n : Nat} (h : svuotaTimer n s = .ok t) : SoloCode s t := by
  induction n generalizing s with
  | zero => cases h
  | succ n ih =>
    unfold svuotaTimer at h
    split at h
    · obtain rfl := Except.ok.inj h
      exact .refl s
    · split at h
      · obtain ⟨s₁, h₁, h₂⟩ := bind_ok h
        have hins := inserisciPronti_code h₁
        have hrest := ih h₂
        exact ⟨hrest.dessem.trans hins.dessem, hrest.esecuzione.trans hins.esecuzione⟩
      · obtain rfl := Except.ok.inj h
        exact .refl s

theorem scadenze_code (h : scadenze s = .ok t) : SoloCode s t := by
  unfold scadenze at h
  simp only at h
  split at h
  · exact svuotaTimer_code h
  · have hrest := svuotaTimer_code h
    exact ⟨hrest.dessem, hrest.esecuzione⟩

end

end Pitos
