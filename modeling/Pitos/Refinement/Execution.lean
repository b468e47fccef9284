import Pitos.Kernel.Places
import Pitos.Refinement.History

/-!
# Runs that are evaluated

`prova` starts the image `caricato`, makes the activations of `cmain` and executes a list of
entries; each entry must be one the machine can make and must meet the condition on the run.
What it reaches is reached in the sense of `Sistema.Raggiunge` (`prova_raggiunge`).
-/

namespace Pitos

open Lib

instance (x : Int) : Decidable (Intero x) := inferInstanceAs (Decidable (_ ∧ _))

instance (c : Chiamata) : Decidable (Interi c) := by
  cases c <;> unfold Interi <;> infer_instance

instance (vive : List Addr) (c : Chiamata) : Decidable (Fresco vive c) := by
  cases c <;> unfold Fresco <;> infer_instance

instance (s : Kernel) (e : Evento) : Decidable (Possibile s e) := by
  cases e <;> unfold Possibile <;> infer_instance

instance (s : Kernel) (e : Evento) : Decidable (SenzaQuit s e) := by
  cases e <;> unfold SenzaQuit <;> infer_instance

instance (s : Kernel) (e : Evento) : Decidable (IdleVivo s e) := by
  unfold IdleVivo
  cases h : passo s e with
  | error r => exact isTrue fun t ht => by cases ht
  | ok s' =>
    exact decidable_of_iff (s'.Vivo idle) ⟨fun hv t ht => Except.ok.inj ht ▸ hv, fun hv => hv s' rfl⟩

instance (v : Avvio) : Decidable (InteriAvvio v) := by
  cases v <;> unfold InteriAvvio <;> infer_instance

instance (x : Sistema) (hsem : Int) : Decidable (x.Emesso hsem) :=
  inferInstanceAs (Decidable (∃ _, _))

instance (x : Sistema) (e : Evento) : Decidable (SottoSoglia x e) := by
  unfold SottoSoglia
  split <;> infer_instance

namespace Sistema

/-- A kernel function called by `cmain`, executed. -/
def tentaAvvio (B : Avvio → Prop) [DecidablePred B] (x : Sistema) (v : Avvio) : Option Sistema :=
  if B v then
    match avvia x.kernel v with
    | .ok s => some ⟨s, annotaAvvio x.kernel v x.storia⟩
    | .error _ => none
  else none

/-- An entry, executed. -/
def tenta (G : Sistema → Evento → Prop) [∀ x e, Decidable (G x e)] (x : Sistema) (e : Evento) :
    Option Sistema :=
  if Possibile x.kernel e ∧ G x e then
    match passo x.kernel e with
    | .ok s => some ⟨s, annota x.kernel e x.storia⟩
    | .error _ => none
  else none

variable {B : Avvio → Prop} [DecidablePred B] {G : Sistema → Evento → Prop}
  [∀ x e, Decidable (G x e)] {x y : Sistema}

theorem tentaAvvio_avvia {v : Avvio} (h : tentaAvvio B x v = some y) : Avvia B x v y := by
  unfold tentaAvvio at h
  split at h
  · rename_i hb
    split at h
    · rename_i s heq
      obtain rfl := Option.some.inj h
      exact ⟨hb, heq, rfl⟩
    · cases h
  · cases h

theorem tenta_passo {e : Evento} (h : tenta G x e = some y) : Passo G x e y := by
  unfold tenta at h
  split at h
  · rename_i hg
    split at h
    · rename_i s heq
      obtain rfl := Option.some.inj h
      exact ⟨hg.1, hg.2, heq, rfl⟩
    · cases h
  · cases h

/-- `kernel_init`, the activations of `cmain` and `kernel_go`. -/
def accendi (B : Avvio → Prop) [DecidablePred B] (avvii : List Avvio) : Option Sistema :=
  match kernelInit 0x5000 0x5004 (pila 0x100000) caricato with
  | .error _ => none
  | .ok s =>
    match exec (tentaAvvio B) ⟨s, fun _ => none⟩ avvii with
    | none => none
    | some x =>
      match kernelGo x.kernel with
      | .error _ => none
      | .ok s => some ⟨s, x.storia⟩

def prova (B : Avvio → Prop) [DecidablePred B] (G : Sistema → Evento → Prop)
    [∀ x e, Decidable (G x e)] (avvii : List Avvio) (es : List Evento) : Option Sistema :=
  match accendi B avvii with
  | none => none
  | some x => exec (tenta G) x es

theorem accendi_avviato {avvii : List Avvio} (h : accendi B avvii = some x) : Avviato B x := by
  unfold accendi at h
  split at h
  · cases h
  · rename_i s₁ h₁
    split at h
    · cases h
    · rename_i x₂ h₂
      split at h
      · cases h
      · rename_i s₃ h₃
        obtain rfl := Option.some.inj h
        exact ⟨caricato, 0x5000, 0x5004, pila 0x100000, ⟨s₁, fun _ => none⟩, avvii, x₂,
          caricato_caricato, h₁, rfl, (exec_run h₂).mono fun _ _ _ => tentaAvvio_avvia, h₃, rfl⟩

/-- What holds at the end of an evaluated run holds of a system that is reached. -/
theorem prova_raggiunge (avvii : List Avvio) (es : List Evento) (P : Sistema → Bool)
    (h : (prova B G avvii es).any P = true) : ∃ x, Raggiunge B G es x ∧ P x = true := by
  unfold prova at h
  split at h
  · cases h
  · rename_i x₀ h₀
    cases hx : exec (tenta G) x₀ es with
    | none =>
      rw [hx] at h
      cases h
    | some x =>
      rw [hx] at h
      exact ⟨x, ⟨x₀, accendi_avviato h₀, (exec_run hx).mono fun _ _ _ => tenta_passo⟩, h⟩

/-- Without the history a system is a kernel. -/
theorem Avviato.kernel {B : Avvio → Prop} (h : Avviato B x) : Pitos.Avviato x.kernel := by
  obtain ⟨s₀, dummy, risu, stk, x₁, avvii, x₂, hcar, hinit, -, hrun, hgo, -⟩ := h
  exact ⟨s₀, dummy, risu, stk, x₁.kernel, avvii, x₂.kernel, hcar, hinit,
    hrun.map fun _ _ _ hv => hv.2.1, hgo⟩

theorem Raggiunge.kernel {B : Avvio → Prop} {G : Sistema → Evento → Prop} {x : Sistema}
    {H : Kernel → Evento → Prop} {es : List Evento} (h : Raggiunge B G es x)
    (hG : ∀ x e, G x e → H x.kernel e) : Pitos.Raggiunge H es x.kernel := by
  obtain ⟨x₀, hx₀, hes⟩ := h
  exact ⟨x₀.kernel, hx₀.kernel, hes.map fun _ _ _ hp => ⟨hp.1, hG _ _ hp.2.1, hp.2.2.1⟩⟩

end Sistema

end Pitos
