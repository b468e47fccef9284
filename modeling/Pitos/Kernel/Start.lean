import Pitos.Kernel.Places
import Pitos.Lib.Run

/-!
# The order of the start

`kernel_init` enables the interrupts right after `log_init`, when there are no processes yet, and
from then on a key may come at any time. What `cmain` does comes next; `kernel_go` starts the
timer. `Accade` gives the states that one `Fatto` leads to. A key inside `kernel_init` finds
and leaves the same current process as one before it.
-/

namespace Pitos

open Lib

inductive Momento
  | inizio | avvio | corsa
  deriving DecidableEq, Repr

structure Avanzamento where
  momento : Momento
  kernel : Kernel

inductive Fatto
  /-- A keyboard interrupt of the start. -/
  | tasto (code : BitVec 8)
  /-- The rest of `kernel_init`. -/
  | init (dummy risu : Word) (stk : Fin 3 → Word)
  | avvia (v : Avvio)
  | go
  | entrata (e : Evento)

inductive Accade : Avanzamento → Fatto → Avanzamento → Prop
  | tasto (f : Momento) (s : Kernel) (code : BitVec 8) (hf : f ≠ .corsa) :
      Accade ⟨f, s⟩ (.tasto code) ⟨f, loggingKbCallback code s⟩
  | init {s t : Kernel} {dummy risu : Word} {stk : Fin 3 → Word}
      (h : kernelInit dummy risu stk s = .ok t) :
      Accade ⟨.inizio, s⟩ (.init dummy risu stk) ⟨.avvio, t⟩
  | avvia {s t : Kernel} {v : Avvio} (h : avvia s v = .ok t) :
      Accade ⟨.avvio, s⟩ (.avvia v) ⟨.avvio, t⟩
  | go {s t : Kernel} (h : kernelGo s = .ok t) : Accade ⟨.avvio, s⟩ .go ⟨.corsa, t⟩
  | entrata {s t : Kernel} {e : Evento} (h : passo s e = .ok t) :
      Accade ⟨.corsa, s⟩ (.entrata e) ⟨.corsa, t⟩

/-- What a loaded image reaches when every step meets `G`. -/
def Raggiunto (G : Avanzamento → Fatto → Prop) (fs : List Fatto) (x : Avanzamento) : Prop :=
  ∃ s₀, Caricato s₀ ∧ Run (fun x f y => G x f ∧ Accade x f y) ⟨.inizio, s₀⟩ fs x

theorem Raggiunto.mono {G G' : Avanzamento → Fatto → Prop} {fs : List Fatto} {x : Avanzamento}
    (h : Raggiunto G fs x) (hG : ∀ x f, G x f → G' x f) : Raggiunto G' fs x := by
  obtain ⟨s₀, h₀, hrun⟩ := h
  exact ⟨s₀, h₀, hrun.mono fun x f y hxy => ⟨hG x f hxy.1, hxy.2⟩⟩

/-! ## Starts that are evaluated -/

def prosegui (m : Momento) : Esito Kernel → Option Avanzamento
  | .ok s => some ⟨m, s⟩
  | .error _ => none

/-- One fact, executed. -/
def accadi (G : Avanzamento → Fatto → Prop) [∀ x f, Decidable (G x f)] (x : Avanzamento)
    (f : Fatto) : Option Avanzamento :=
  if G x f then
    match x.momento, f with
    | .inizio, .tasto code => some ⟨.inizio, loggingKbCallback code x.kernel⟩
    | .inizio, .init dummy risu stk => prosegui .avvio (kernelInit dummy risu stk x.kernel)
    | .avvio, .tasto code => some ⟨.avvio, loggingKbCallback code x.kernel⟩
    | .avvio, .avvia v => prosegui .avvio (avvia x.kernel v)
    | .avvio, .go => prosegui .corsa (kernelGo x.kernel)
    | .corsa, .entrata e => prosegui .corsa (passo x.kernel e)
    | _, _ => none
  else none

theorem prosegui_ok {m : Momento} {r : Esito Kernel} {y : Avanzamento}
    (h : prosegui m r = some y) : ∃ t, r = .ok t ∧ y = ⟨m, t⟩ := by
  cases r with
  | ok t => exact ⟨t, rfl, (Option.some.inj h).symm⟩
  | error e => cases h

section

variable {G : Avanzamento → Fatto → Prop} [∀ x f, Decidable (G x f)] {x y : Avanzamento}
  {f : Fatto}

theorem accadi_accade (h : accadi G x f = some y) : G x f ∧ Accade x f y := by
  obtain ⟨m, s⟩ := x
  unfold accadi at h
  split at h
  · rename_i hg
    refine ⟨hg, ?_⟩
    simp only at h
    split at h
    · obtain rfl := Option.some.inj h
      exact .tasto _ s _ (by decide)
    · obtain ⟨t, ht, rfl⟩ := prosegui_ok h
      exact .init ht
    · obtain rfl := Option.some.inj h
      exact .tasto _ s _ (by decide)
    · obtain ⟨t, ht, rfl⟩ := prosegui_ok h
      exact .avvia ht
    · obtain ⟨t, ht, rfl⟩ := prosegui_ok h
      exact .go ht
    · obtain ⟨t, ht, rfl⟩ := prosegui_ok h
      exact .entrata ht
    · cases h
  · cases h

/-- What holds at the end of an evaluated start holds of a state that is reached. -/
theorem accadi_raggiunto (fs : List Fatto) (P : Avanzamento → Bool)
    (h : (exec (accadi G) ⟨.inizio, caricato⟩ fs).any P = true) :
    ∃ x, Raggiunto G fs x ∧ P x = true := by
  cases hx : exec (accadi G) ⟨.inizio, caricato⟩ fs with
  | none =>
    rw [hx] at h
    cases h
  | some x =>
    rw [hx] at h
    exact ⟨x, ⟨caricato, caricato_caricato, (exec_run hx).mono fun _ _ _ => accadi_accade⟩, h⟩

end

end Pitos
