import Pitos.Properties.Handles

/-!
# `esecuzione` is not null where it is used

Most routines of the kernel follow `esecuzione` without a test. `Accede x f r t` says that the
fact `f`, in `x`, brings the kernel into routine `r` in the state `t`. After `kernel_go` the
pointer stays good, because who leaves the CPU gives it to somebody; the exception is a signal
that takes the next process from an empty queue. Before `kernel_go` it is null, and the keyboard
handler uses it (`esecuzione_valida`).
-/

namespace Pitos

open Lib

/-- The routines that follow `esecuzione` without a test. -/
inductive Routine
  | salvaStato | signalsCheck | caricaStato | handlesignals | cdriverT | turno | kiRaise
  | kiSignal | kiSemSignal | kiTerminateP | kiGetPri | kiGetBasepri | kiDelay | kiSignalrespin
  deriving DecidableEq, Repr

/-- The routine of a system call, if it is such. -/
def Chiamata.routine : Chiamata → Option Routine
  | .terminateP => some .kiTerminateP
  | .semSignal _ => some .kiSemSignal
  | .delay _ _ => some .kiDelay
  | .getPri _ => some .kiGetPri
  | .getBasepri _ => some .kiGetBasepri
  | .signal _ _ => some .kiSignal
  | .raise _ => some .kiRaise
  | .signalrespin => some .kiSignalrespin
  | _ => none

/-- What the callback of the keyboard has stored when it looks at the key. -/
def Kernel.premuto (s : Kernel) (code : BitVec 8) : Kernel :=
  { s with kbChanged := 1, kbLast := code.toNat }

/-- The routine that an entry from a process, an interrupt or an exception comes to first. -/
inductive AccedeEvento (s : Kernel) : Evento → Routine → Kernel → Prop
  | tasto : AccedeEvento s (.tasto 0x86) .kiRaise (s.premuto 0x86)
  | syscalle (c : Chiamata) : AccedeEvento s (.chiamata c) .salvaStato s
  | errata : AccedeEvento s .chiamataErrata .salvaStato s
  | chiamata {c : Chiamata} {r : Routine} (h : c.routine = some r) :
      AccedeEvento s (.chiamata c) r s
  | check {c : Chiamata} {t : Kernel} (h : esegui c s = .ok t) :
      AccedeEvento s (.chiamata c) .signalsCheck t
  | segnale {c : Chiamata} {t : Kernel} (h : esegui c s = .ok t)
      (hm : (t.des t.esecuzione).sigMask ≠ 0) : AccedeEvento s (.chiamata c) .handlesignals t
  | uscita {c : Chiamata} {t u : Kernel} (h : esegui c s = .ok t) (h' : signalsCheck t = .ok u) :
      AccedeEvento s (.chiamata c) .caricaStato u
  | acdriver : AccedeEvento s .tick .salvaStato s
  | cdriver {t : Kernel} (h : scadenze s = .ok t) : AccedeEvento s .tick .cdriverT t
  | segnaleTick {t : Kernel} (h : scadenze s = .ok t) (hm : (t.des t.esecuzione).sigMask ≠ 0) :
      AccedeEvento s .tick .handlesignals
        (t.aggiorna t.esecuzione fun d => { d with tick := int32 (d.tick + 1) })
  | turno {t u : Kernel} (h : scadenze s = .ok t) (h' : addebita t = .ok u) :
      AccedeEvento s .tick .turno u
  | uscitaTick {t : Kernel} (h : cdriverT s = .ok t) : AccedeEvento s .tick .caricaStato t
  | eccezione (h : s.esecuzione ≠ none) : AccedeEvento s .eccezione .kiTerminateP s.logShow
  | uscitaEccezione {t : Kernel} (h : s.esecuzione ≠ none) (h' : kiTerminateP s.logShow = .ok t) :
      AccedeEvento s .eccezione .caricaStato t
  | ritorno : AccedeEvento s .ritorno .kiTerminateP s

/-- The same for the start. `kernel_go` itself tests `esecuzione`. -/
inductive Accede : Avanzamento → Fatto → Routine → Kernel → Prop
  | tasto (m : Momento) (s : Kernel) (hm : m ≠ .corsa) :
      Accede ⟨m, s⟩ (.tasto 0x86) .kiRaise (s.premuto 0x86)
  | go {s t : Kernel} (h : (if s.esecuzione = none then schedulatore s else s) = t)
      (ht : t.esecuzione ≠ none) : Accede ⟨.avvio, s⟩ .go .caricaStato t
  | entrata {s t : Kernel} {e : Evento} {r : Routine} (h : AccedeEvento s e r t) :
      Accede ⟨.corsa, s⟩ (.entrata e) r t

/-- A signal finds nobody in the queue, and what stands at address 0 goes first. -/
def SvegliaNessuno (s : Kernel) (hsem : Int) : Prop :=
  ∃ i, maniglia hsem = some i ∧ int32 ((s.dessem i).count + 1) ≤ 0 ∧ (s.dessem i).coda = none ∧
    (s.des none).prec ≤ (s.des s.esecuzione).prec

/-- A signal that leaves the count positive takes nobody from the queue. -/
theorem not_svegliaNessuno {s : Kernel} {hsem : Int}
    (h : ∀ i, maniglia hsem = some i → 0 < int32 ((s.dessem i).count + 1)) :
    ¬ SvegliaNessuno s hsem := by
  rintro ⟨i, hi, hc, -⟩
  exact absurd hc (not_le.mpr (h i hi))

/-- The key that raises `SIGQUIT` is not released before a process runs, and no signal gives
the CPU to nobody. -/
def Sicuro (x : Avanzamento) : Fatto → Prop
  | .tasto code => code = 0x86 → x.kernel.esecuzione ≠ none
  | .entrata (.chiamata (.semSignal hsem)) => ¬ SvegliaNessuno x.kernel hsem
  | _ => True

section

variable {s t : Kernel}

theorem kiSemWait_corrente {hsem : Int} (h : kiSemWait hsem s = .ok t) (he : s.esecuzione ≠ none) :
    t.esecuzione ≠ none := by
  cases hi : maniglia hsem with
  | none =>
    obtain rfl := Except.ok.inj ((kiSemWait_none hi).symm.trans h)
    exact he
  | some i =>
    simp only [kiSemWait, hi] at h
    split at h
    · obtain ⟨s₁, h₁, h₂⟩ := bind_ok h
      obtain rfl := Except.ok.inj h₂
      apply schedulatore_corrente
      unfold Kernel.inserisciSem at h₁
      split at h₁
      · cases h₁
      · obtain rfl := Except.ok.inj h₁
        exact he
    · obtain rfl := Except.ok.inj h
      exact he

/-- The two ways of a signal that takes somebody from the queue, or nobody. -/
theorem kiSemSignal_corrente {hsem : Int} (h : kiSemSignal hsem s = .ok t)
    (he : s.esecuzione ≠ none) (hv : ¬ SvegliaNessuno s hsem) : t.esecuzione ≠ none := by
  cases hi : maniglia hsem with
  | none =>
    obtain rfl := Except.ok.inj ((kiSemSignal_none hi).symm.trans h)
    exact he
  | some i =>
    simp only [kiSemSignal, hi, Kernel.setCount, Function.update_self] at h
    split at h
    · rename_i hc
      cases hcoda : (s.dessem i).coda with
      | none =>
        simp only [rimozioneCoda, hcoda] at h
        split at h
        · rename_i hprec
          exact absurd ⟨i, hi, hc, hcoda, hprec⟩ hv
        · have hins := (inserisciPronti_code h).esecuzione
          rw [hins]
          exact he
      | some q =>
        simp only [rimozioneCoda, hcoda] at h
        split at h
        · obtain ⟨s₁, h₁, h₂⟩ := bind_ok h
          obtain rfl := Except.ok.inj h₂
          exact Option.some_ne_none q
        · have hins := (inserisciPronti_code h).esecuzione
          rw [hins]
          exact he
    · obtain rfl := Except.ok.inj h
      exact he

theorem attendi_corrente {d : Int} {z : Addr} (h : attendi d z s = .ok t)
    (he : s.esecuzione ≠ none) : t.esecuzione ≠ none := by
  obtain ⟨s₁, h₁, h₂⟩ := bind_ok h
  obtain rfl := Except.ok.inj h₂
  apply schedulatore_corrente
  rw [(inserimentoCodaTimer_code h₁).esecuzione]
  exact he

theorem kiRaise_esecuzione (sig : Int) (s : Kernel) :
    (kiRaise sig s).2.esecuzione = s.esecuzione := by
  unfold kiRaise
  split <;> rfl

/-- One case for each call: only a signal can leave the CPU to nobody. -/
theorem esegui_corrente {c : Chiamata} (h : esegui c s = .ok t) (he : s.esecuzione ≠ none)
    (hc : Sicuro ⟨.corsa, s⟩ (.entrata (.chiamata c))) : t.esecuzione ≠ none := by
  cases c with
  | activateP f k prec idx risu stk =>
    rw [(kiActivatePLevel_code h).esecuzione]
    exact he
  | terminateP => exact kiTerminateP_corrente h he
  | semIni valore idx risu =>
    obtain rfl := Except.ok.inj h
    unfold kiSemIni
    split <;> exact he
  | semWait hsem => exact kiSemWait_corrente h he
  | semSignal hsem => exact kiSemSignal_corrente h he hc
  | delay n z => exact attendi_corrente h he
  | signal sig func =>
    obtain rfl := Except.ok.inj h
    unfold kiSignal
    split <;> exact he
  | raise sig =>
    obtain rfl := Except.ok.inj h
    rw [kiRaise_esecuzione]
    exact he
  | sysGetOsName q len =>
    obtain rfl := Except.ok.inj h
    unfold kiSysGetOsName
    split <;> exact he
  | _ =>
    obtain rfl := Except.ok.inj h
    exact he

theorem signalsCheck_corrente (h : signalsCheck s = .ok t) (he : s.esecuzione ≠ none) :
    t.esecuzione ≠ none := by
  exact pendenti_corrente (signalsCheck_ok h).2 he

theorem addebita_corrente (h : addebita s = .ok t) (he : s.esecuzione ≠ none) :
    t.esecuzione ≠ none :=
  pendenti_corrente (s := s.aggiorna s.esecuzione fun d => { d with tick := int32 (d.tick + 1) })
    h he

theorem cdriverT_corrente (h : cdriverT s = .ok t) (he : s.esecuzione ≠ none) :
    t.esecuzione ≠ none := by
  obtain ⟨s₁, h₁, h₂⟩ := bind_ok h
  obtain ⟨s₂, h₂, h₃⟩ := bind_ok h₂
  rw [← (scadenze_code h₁).esecuzione] at he
  exact turno_corrente h₃ (addebita_corrente h₂ he)

/-- The way out is never taken without a current process. -/
theorem caricaStato_corrente (h : caricaStato s = .ok t) : t.esecuzione ≠ none := by
  obtain ⟨he, rfl⟩ := caricaStato_ok h
  exact he

/-- An entry that comes back leaves somebody on the CPU. -/
theorem passo_corrente {e : Evento} (h : passo s e = .ok t) (he : s.esecuzione ≠ none) :
    t.esecuzione ≠ none := by
  cases e with
  | chiamata c =>
    obtain ⟨s₁, h₁, h₂⟩ := bind_ok h
    obtain ⟨s₂, h₂, h₃⟩ := bind_ok h₂
    exact caricaStato_corrente h₃
  | chiamataErrata =>
    obtain rfl := Except.ok.inj h
    exact he
  | tick =>
    obtain ⟨s₁, h₁, h₂⟩ := bind_ok h
    exact caricaStato_corrente h₂
  | tasto code =>
    obtain rfl := Except.ok.inj h
    unfold loggingKbCallback
    simp only
    split
    · exact he
    · split
      · rw [kiRaise_esecuzione]
        exact he
      · exact he
  | eccezione =>
    simp only [passo, handlerNoCode] at h
    split at h
    · cases h
    · obtain ⟨s₁, h₁, h₂⟩ := bind_ok h
      exact caricaStato_corrente h₂
  | ritorno =>
    obtain ⟨s₁, h₁, h₂⟩ := bind_ok h
    cases h₂

theorem kernelGo_corrente (h : kernelGo s = .ok t) : t.esecuzione ≠ none := by
  obtain ⟨s₁, _, h₁⟩ := kernelGo_ok h
  exact caricaStato_corrente h₁

/-! ## Inside an entry -/

/-- What is entered on the way of a safe entry finds a current process. -/
theorem AccedeEvento.corrente {e : Evento} {r : Routine} (h : AccedeEvento s e r t)
    (he : s.esecuzione ≠ none) (hs : Sicuro ⟨.corsa, s⟩ (.entrata e)) : t.esecuzione ≠ none := by
  cases h with
  | tasto => exact he
  | syscalle c => exact he
  | errata => exact he
  | chiamata h => exact he
  | check h => exact esegui_corrente h he hs
  | segnale h hm => exact esegui_corrente h he hs
  | uscita h h' => exact signalsCheck_corrente h' (esegui_corrente h he hs)
  | acdriver => exact he
  | cdriver h => exact (scadenze_code h).esecuzione.symm ▸ he
  | segnaleTick h hm => exact (scadenze_code h).esecuzione.symm ▸ he
  | turno h h' => exact addebita_corrente h' ((scadenze_code h).esecuzione.symm ▸ he)
  | uscitaTick h => exact cdriverT_corrente h he
  | eccezione h => exact he
  | uscitaEccezione h h' => exact kiTerminateP_corrente h' he
  | ritorno => exact he

/-- When the signal is not safe, `signals_check` finds no current process, or the loop that
inserts the old one in `pronti` never ends. -/
theorem SvegliaNessuno.entra {hsem : Int} (h : SvegliaNessuno s hsem) :
    (∃ t, AccedeEvento s (.chiamata (.semSignal hsem)) .signalsCheck t ∧ t.esecuzione = none) ∨
      passo s (.chiamata (.semSignal hsem)) = .error .diverge := by
  obtain ⟨i, hi, hc, hcoda, hprec⟩ := h
  cases hins : inserimentoCoda s.des s.pronti s.esecuzione with
  | none =>
    apply Or.inr
    simp only [passo, esegui, kiSemSignal, hi, Kernel.setCount, Function.update_self, if_pos hc,
      rimozioneCoda, hcoda, if_pos hprec, Kernel.inserisciPronti, hins]
    rfl
  | some x =>
    have hsegnale : ∃ t, kiSemSignal hsem s = .ok t ∧ t.esecuzione = none := by
      simp only [kiSemSignal, hi, Kernel.setCount, Function.update_self, if_pos hc,
        rimozioneCoda, hcoda, if_pos hprec, Kernel.inserisciPronti, hins]
      exact ⟨_, rfl, rfl⟩
    obtain ⟨t, ht, hnone⟩ := hsegnale
    exact Or.inl ⟨t, .check ht, hnone⟩

end

/-! ## The runs -/

/-- Once `kernel_go` has come back, `esecuzione` is not null. -/
def Occupata (x : Avanzamento) : Prop := x.momento = .corsa → x.kernel.esecuzione ≠ none

theorem Occupata.accade {x y : Avanzamento} {f : Fatto} (hx : Occupata x) (h : Accade x f y) :
    Occupata y := by
  cases h with
  | tasto m s code hm => exact fun hm' => absurd hm' hm
  | init h => exact nofun
  | avvia h => exact nofun
  | go h => exact fun _ => kernelGo_corrente h
  | entrata h => exact fun _ => passo_corrente h (hx rfl)

theorem Raggiunto.occupata {G : Avanzamento → Fatto → Prop} {fs : List Fatto} {x : Avanzamento}
    (h : Raggiunto G fs x) : Occupata x := by
  obtain ⟨s₀, -, hrun⟩ := h
  exact hrun.invariant (fun x f y hx hxy => hx.accade hxy.2) nofun

/-- The fact is one of the moment. -/
def Ammesso (x : Avanzamento) : Fatto → Prop
  | .tasto _ => x.momento ≠ .corsa
  | .init _ _ _ => x.momento = .inizio
  | .avvia _ => x.momento = .avvio
  | .go => x.momento = .avvio
  | .entrata _ => x.momento = .corsa

/-- **`esecuzione` is used when it is not null.** What the kernel comes to on the way of a fact
that meets the condition finds a current process; on the way of one that does not, something
finds none, or a loop never ends. -/
theorem esecuzione_valida {G : Avanzamento → Fatto → Prop} {fs : List Fatto} {x : Avanzamento}
    (h : Raggiunto G fs x) (f : Fatto) :
    (Sicuro x f → ∀ r t, Accede x f r t → t.esecuzione ≠ none) ∧
      (¬ Sicuro x f → Ammesso x f → (∃ r t, Accede x f r t ∧ t.esecuzione = none) ∨
        ∃ e, f = .entrata e ∧ passo x.kernel e = .error .diverge) := by
  have hocc := h.occupata
  refine ⟨fun hs r t hr => ?_, fun hs ha => ?_⟩
  · cases hr with
    | tasto m s hm => exact hs rfl
    | go h ht => exact ht
    | entrata h => exact h.corrente (hocc rfl) hs
  · obtain ⟨m, s⟩ := x
    cases f with
    | tasto code =>
      have hcode : code = 0x86 := by
        by_contra hne
        exact hs fun e => absurd e hne
      subst hcode
      have hnone : s.esecuzione = none := by
        by_contra hne
        exact hs fun _ => hne
      exact Or.inl ⟨_, _, .tasto m s ha, hnone⟩
    | entrata e =>
      obtain rfl : m = .corsa := ha
      cases e with
      | chiamata c =>
        cases c with
        | semSignal hsem =>
          rcases (not_not.mp hs).entra with ⟨t, ht, hnone⟩ | hdiv
          · exact Or.inl ⟨_, t, .entrata ht, hnone⟩
          · exact Or.inr ⟨_, rfl, hdiv⟩
        | _ => exact absurd trivial hs
      | _ => exact absurd trivial hs
    | _ => exact absurd trivial hs

/-- A run with keys, a call, a tick and an exception, up to a key while a process runs. -/
theorem esecuzione_valida_corsa : ∃ x, Raggiunto (fun _ _ => True)
    [.tasto 0x1, .init 0x5000 0x5004 (pila 0x100000), .tasto 0x9E,
      .avvia (.attiva 0x40000 0 1 3 0x5000 0x5004 (pila 0x110000)), .go,
      .entrata (.chiamata (.raise 4)), .entrata .tick, .entrata .eccezione] x ∧
      ∀ r t, Accede x (.entrata (.tasto 0x86)) r t → t.esecuzione ≠ none := by
  obtain ⟨x, hx, -⟩ := accadi_raggiunto (G := fun _ _ => True)
    [.tasto 0x1, .init 0x5000 0x5004 (pila 0x100000), .tasto 0x9E,
      .avvia (.attiva 0x40000 0 1 3 0x5000 0x5004 (pila 0x110000)), .go,
      .entrata (.chiamata (.raise 4)), .entrata .tick, .entrata .eccezione] (fun _ => true)
    (by decide +kernel)
  exact ⟨x, hx, (esecuzione_valida hx _).1 trivial⟩

/-- The key right after `kernel_init`: `ki_raise` writes through a null pointer. -/
theorem tasto_senza_processo : ∃ fs x, Raggiunto (fun _ _ => True) fs x ∧
    ∃ t, Accede x (.tasto 0x86) .kiRaise t ∧ t.esecuzione = none := by
  obtain ⟨⟨m, s⟩, hx, hP⟩ := accadi_raggiunto (G := fun _ _ => True)
    [.init 0x5000 0x5004 (pila 0x100000)]
    (fun x => x.momento = .avvio && x.kernel.esecuzione = none) (by decide +kernel)
  simp only [Bool.and_eq_true, decide_eq_true_eq] at hP
  obtain ⟨rfl, hnone⟩ := hP
  exact ⟨_, _, hx, _, .tasto .avvio s (by decide), hnone⟩

end Pitos
