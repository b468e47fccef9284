import Pitos.Refinement.Outcomes
import Pitos.Refinement.Represents

/-!
# What the kernel's C code leaves alone

The scheduler, the queues, the semaphores and the timer move processes about and assign their
state, their priorities and their counters; they leave the part of a descriptor that belongs to
its program as it is (`Conservati`), and the memory too (`Quieto`). Signals change the mask and
the handlers of the current process besides. The slots of `context` and the stacks are written
by an activation only (`Intatti`). No invariant is needed for this: it holds of every path that
comes back, from any state.
-/

namespace Pitos

open Lib

/-- The part of the programs is the same in all descriptors. -/
def Conservati (s t : Kernel) : Prop := ∀ r, StessiRegistri (s.des r) (t.des r)

/-- The context and the stacks in all descriptors are the same. -/
def Intatti (s t : Kernel) : Prop :=
  ∀ r, (t.des r).context = (s.des r).context ∧ (t.des r).stk = (s.des r).stk

namespace Conservati

variable {s t u : Kernel}

theorem refl (s : Kernel) : Conservati s s := fun _ => .refl _

theorem trans (h : Conservati s t) (h' : Conservati t u) : Conservati s u := fun r =>
  (h r).trans (h' r)

/-- Only the descriptors count. -/
theorem of_des (h : t.des = s.des) : Conservati s t := fun r => by
  rw [h]
  exact .refl _

theorem of_slegato (h : ∀ r, (t.des r).slegato = (s.des r).slegato) : Conservati s t := by
  intro r
  have hcontext := congrArg DesProc.context (h r)
  have hstk := congrArg DesProc.stk (h r)
  have hmask := congrArg DesProc.sigMask (h r)
  have hgestori := congrArg DesProc.sigHandlers (h r)
  have hbase := congrArg DesProc.baseprec (h r)
  exact ⟨hcontext, hstk, hmask, hgestori, hbase⟩

/-- An assignment to other fields. -/
theorem aggiorna (s : Kernel) (p : DesPtr) {f : DesProc → DesProc}
    (hf : ∀ d, StessiRegistri d (f d)) : Conservati s (s.aggiorna p f) := by
  intro r
  by_cases hr : r = p
  · subst hr
    rw [Kernel.des_aggiorna, Function.update_self]
    exact hf _
  · rw [Kernel.des_aggiorna, Function.update_of_ne hr]
    exact .refl _

/-- The same when other variables are assigned as well. -/
theorem assegna (p : DesPtr) {f : DesProc → DesProc} (hf : ∀ d, StessiRegistri d (f d))
    (h : t.des = Function.update s.des p (f (s.des p))) : Conservati s t :=
  (aggiorna s p hf).trans (of_des h)

theorem intatti (h : Conservati s t) : Intatti s t := fun r => ⟨(h r).context, (h r).stk⟩

end Conservati

/-- The memory and the addresses of the image are the same too. -/
structure Quieto (s t : Kernel) : Prop where
  conservati : Conservati s t
  mem : t.mem = s.mem
  link : t.link = s.link

namespace Quieto

variable {s t u : Kernel}

theorem refl (s : Kernel) : Quieto s s := ⟨.refl s, rfl, rfl⟩

theorem trans (h : Quieto s t) (h' : Quieto t u) : Quieto s u :=
  ⟨h.conservati.trans h'.conservati, h'.mem.trans h.mem, h'.link.trans h.link⟩

theorem of_des (h : t.des = s.des) (hm : t.mem = s.mem) (hl : t.link = s.link) : Quieto s t :=
  ⟨.of_des h, hm, hl⟩

/-- An assignment to other fields. -/
theorem aggiorna (s : Kernel) (p : DesPtr) {f : DesProc → DesProc}
    (hf : ∀ d, StessiRegistri d (f d)) : Quieto s (s.aggiorna p f) :=
  ⟨.aggiorna s p hf, rfl, rfl⟩

theorem of_slegato (h : ∀ r, (t.des r).slegato = (s.des r).slegato) (hm : t.mem = s.mem)
    (hl : t.link = s.link) : Quieto s t :=
  ⟨.of_slegato h, hm, hl⟩

/-- The same when other variables are assigned as well. -/
theorem assegna (p : DesPtr) {f : DesProc → DesProc} (hf : ∀ d, StessiRegistri d (f d))
    (h : t.des = Function.update s.des p (f (s.des p))) (hm : t.mem = s.mem)
    (hl : t.link = s.link) : Quieto s t :=
  ⟨.assegna p hf h, hm, hl⟩

/-- Other variables do not count. -/
theorem resto (h : Quieto s t) (hd : u.des = t.des) (hm : u.mem = t.mem) (hl : u.link = t.link) :
    Quieto s u :=
  h.trans (.of_des hd hm hl)

theorem intatti (h : Quieto s t) : Intatti s t := h.conservati.intatti

end Quieto

namespace Intatti

variable {s t u : Kernel}

theorem refl (s : Kernel) : Intatti s s := fun _ => ⟨rfl, rfl⟩

theorem trans (h : Intatti s t) (h' : Intatti t u) : Intatti s u := fun r =>
  ⟨(h' r).1.trans (h r).1, (h' r).2.trans (h r).2⟩

/-- Only the descriptors count. -/
theorem of_des (h : t.des = s.des) : Intatti s t := (Conservati.of_des h).intatti

/-- An assignment to other fields. -/
theorem aggiorna (s : Kernel) (p : DesPtr) {f : DesProc → DesProc}
    (hf : ∀ d, (f d).context = d.context ∧ (f d).stk = d.stk) : Intatti s (s.aggiorna p f) := by
  intro r
  by_cases hr : r = p
  · subst hr
    rw [Kernel.des_aggiorna, Function.update_self]
    exact hf _
  · rw [Kernel.des_aggiorna, Function.update_of_ne hr]
    exact ⟨rfl, rfl⟩

end Intatti

/-! ## The queues -/

theorem slegato_inserimentoCoda {des des' : DesMem} {coda coda' p : DesPtr}
    (h : inserimentoCoda des coda p = some (des', coda')) (r : DesPtr) :
    (des' r).slegato = (des r).slegato := by
  unfold inserimentoCoda at h
  split at h
  · obtain ⟨rfl, -⟩ := Prod.mk.inj (Option.some.inj h)
    rfl
  · split at h
    · cases h
    · obtain ⟨rfl, -⟩ := Prod.mk.inj (Option.some.inj h)
      exact slegato_setNext _ _ _ _
    · obtain ⟨rfl, -⟩ := Prod.mk.inj (Option.some.inj h)
      exact (slegato_setNext _ _ _ _).trans (slegato_setNext _ _ _ _)

section

variable {s t : Kernel} {p : DesPtr}

theorem inserisciPronti_slegato (h : s.inserisciPronti p = .ok t) (r : DesPtr) :
    (t.des r).slegato = (s.des r).slegato := by
  unfold Kernel.inserisciPronti at h
  split at h
  · cases h
  · rename_i des coda heq
    obtain rfl := Except.ok.inj h
    exact slegato_inserimentoCoda heq r

theorem inserisciPronti_quieto (h : s.inserisciPronti p = .ok t) : Quieto s t := by
  have hslegato := inserisciPronti_slegato h
  unfold Kernel.inserisciPronti at h
  split at h
  · cases h
  · obtain rfl := Except.ok.inj h
    exact .of_slegato hslegato rfl rfl

theorem inserisciSem_quieto {i : Fin MAXSEMS} (h : s.inserisciSem i p = .ok t) : Quieto s t := by
  unfold Kernel.inserisciSem at h
  split at h
  · cases h
  · rename_i des coda heq
    obtain rfl := Except.ok.inj h
    exact .of_slegato (slegato_inserimentoCoda heq) rfl rfl

theorem rimozioneCoda_quieto {coda : DesPtr} (s : Kernel) :
    Quieto s { s with des := (rimozioneCoda s.des coda).1 } := by
  refine .of_slegato (fun r => ?_) rfl rfl
  unfold rimozioneCoda
  cases coda with
  | none => rfl
  | some q => exact slegato_setNext _ _ _ _

/-! ## The scheduler -/

/-- The assignments of `schedulatore` to the process that gets the CPU. -/
theorem avvia_quieto (s : Kernel) (p pronti : DesPtr) :
    Quieto s (Kernel.aggiorna { (({ s with esecuzione := p } : Kernel).aggiorna p fun d =>
      { d with stato := .RUNNING, tick := 0 }) with pronti } p fun d => { d with next := none }) := by
  refine Quieto.trans (t := ({ s with esecuzione := p } : Kernel).aggiorna p fun d =>
    { d with stato := .RUNNING, tick := 0 }) ?_ (.assegna p (f := fun d => { d with next := none })
      (fun _ => ⟨rfl, rfl, rfl, rfl, rfl⟩) rfl rfl rfl)
  exact .assegna p (f := fun d => { d with stato := .RUNNING, tick := 0 })
    (fun _ => ⟨rfl, rfl, rfl, rfl, rfl⟩) rfl rfl rfl

theorem schedulatore_quieto (s : Kernel) : Quieto s (schedulatore s) := by
  cases hp : s.pronti with
  | none =>
    rw [schedulatore, hp]
    exact .refl s
  | some p =>
    simp only [schedulatore, hp]
    split
    · exact Quieto.trans (t := s.aggiorna s.esecuzione fun d =>
        { d with tickTotal := int32 (d.tickTotal + d.tick) })
        (.aggiorna s _ fun _ => ⟨rfl, rfl, rfl, rfl, rfl⟩) (avvia_quieto _ (some p) _)
    · exact avvia_quieto s (some p) _

theorem ricalcola_conservati {n : Nat} {des des' : DesMem} {head : DesPtr} {pp : List Pid}
    (h : ricalcola n des head = some (des', pp)) (r : DesPtr) :
    StessiRegistri (des r) (des' r) := by
  induction n generalizing des head pp with
  | zero => cases h
  | succ n ih =>
    cases head with
    | none =>
      obtain ⟨rfl, -⟩ := Prod.mk.inj (Option.some.inj h)
      exact .refl _
    | some p =>
      unfold ricalcola at h
      simp only at h
      split at h
      · cases h
      · rename_i des₁ pp₁ heq
        obtain ⟨rfl, -⟩ := Prod.mk.inj (Option.some.inj h)
        refine StessiRegistri.trans ?_ (ih heq)
        by_cases hr : r = some p
        · subst hr
          rw [Function.update_self]
          exact ⟨rfl, rfl, rfl, rfl, rfl⟩
        · rw [Function.update_of_ne hr]
          exact .refl _

theorem reinserisci_quieto {pp : List Pid} (h : reinserisci s pp = .ok t) : Quieto s t := by
  induction pp generalizing s with
  | nil =>
    obtain rfl := Except.ok.inj h
    exact .refl s
  | cons p pp ih =>
    obtain ⟨s₁, h₁, h₂⟩ := bind_ok h
    exact (inserisciPronti_quieto h₁).trans (ih h₂)

theorem reschedule_quieto (h : reschedule s = .ok t) : Quieto s t := by
  unfold reschedule at h
  split at h
  · cases h
  · rename_i des pp heq
    exact Quieto.trans (t := { s with des, pronti := none }) ⟨ricalcola_conservati heq, rfl, rfl⟩
      (reinserisci_quieto h)

/-! ## System calls and interrupts -/

theorem kiTerminateP_quieto (h : kiTerminateP s = .ok t) : Quieto s t := by
  obtain ⟨_, rfl⟩ := kiTerminateP_ok h
  refine Quieto.trans ?_ (schedulatore_quieto _)
  exact .assegna s.esecuzione (f := DesProc.libero) (fun d => ⟨rfl, rfl, rfl, rfl, rfl⟩) rfl rfl rfl

theorem caricaStato_quieto (h : caricaStato s = .ok t) : Quieto s t := by
  obtain ⟨_, rfl⟩ := caricaStato_ok h
  exact .of_des rfl rfl rfl

theorem kiSemWait_quieto {hsem : Int} (h : kiSemWait hsem s = .ok t) : Quieto s t := by
  unfold kiSemWait at h
  split at h
  · obtain rfl := Except.ok.inj h
    exact .refl s
  · rename_i i hi
    simp only at h
    split at h
    · obtain ⟨s₁, h₁, h₂⟩ := bind_ok h
      obtain rfl := Except.ok.inj h₂
      exact Quieto.trans (t := s.setCount i _) (.of_des rfl rfl rfl)
        ((inserisciSem_quieto h₁).trans (schedulatore_quieto s₁))
    · obtain rfl := Except.ok.inj h
      exact .of_des rfl rfl rfl

theorem kiSemSignal_quieto {hsem : Int} (h : kiSemSignal hsem s = .ok t) : Quieto s t := by
  unfold kiSemSignal at h
  split at h
  · obtain rfl := Except.ok.inj h
    exact .refl s
  · rename_i i hi
    simp only at h
    generalize hc : s.setCount i (int32 ((s.dessem i).count + 1)) = s₁ at h
    have h₀ : Quieto s s₁ := by
      subst hc
      exact .of_des rfl rfl rfl
    split at h
    · have h₁ : Quieto s₁ { s₁ with
          des := (rimozioneCoda s₁.des (s₁.dessem i).coda).1
          dessem := Function.update s₁.dessem i
            { s₁.dessem i with coda := (rimozioneCoda s₁.des (s₁.dessem i).coda).2.1 } } :=
        (rimozioneCoda_quieto s₁).resto rfl rfl rfl
      split at h
      · obtain ⟨s₂, h₂, h₃⟩ := bind_ok h
        obtain rfl := Except.ok.inj h₃
        refine (h₀.trans h₁).trans ((inserisciPronti_quieto h₂).trans ?_)
        exact .assegna (rimozioneCoda s₁.des (s₁.dessem i).coda).2.2 (f := DesProc.pronto)
          (fun d => ⟨rfl, rfl, rfl, rfl, rfl⟩) rfl rfl rfl
      · exact (h₀.trans h₁).trans (inserisciPronti_quieto h)
    · obtain rfl := Except.ok.inj h
      exact h₀

theorem kiSemIni_conservati (valore : Int) (idx risu : Word) (s : Kernel) :
    Conservati s (kiSemIni valore idx risu s) := by
  unfold kiSemIni
  split <;> exact .of_des rfl

theorem inserimentoCodaTimer_quieto {z : Addr} (h : inserimentoCodaTimer z s = .ok t) :
    Quieto s t := by
  unfold inserimentoCodaTimer at h
  split at h
  · cases h
  · rename_i dattesa prec r heq
    simp only at h
    have h₁ : Quieto s ((s.aggiornaRic z fun q => { q with dattesa, pric := r }).aggiorna
        ((s.aggiornaRic z fun q => { q with dattesa, pric := r }).ric z).proc
          fun d => { d with next := none }) :=
      Quieto.trans (t := s.aggiornaRic z _) (.of_des rfl rfl rfl)
        (.aggiorna _ _ fun d => ⟨rfl, rfl, rfl, rfl, rfl⟩)
    split at h
    · split at h <;> obtain rfl := Except.ok.inj h <;> exact h₁.resto rfl rfl rfl
    · split at h <;> obtain rfl := Except.ok.inj h <;> exact h₁.resto rfl rfl rfl

theorem attendi_quieto {d : Int} {z : Addr} (h : attendi d z s = .ok t) : Quieto s t := by
  obtain ⟨s₁, h₁, h₂⟩ := bind_ok h
  obtain rfl := Except.ok.inj h₂
  have h₃ := (inserimentoCodaTimer_quieto h₁).trans (schedulatore_quieto s₁)
  refine Quieto.trans ?_ h₃
  exact .of_des rfl rfl rfl

theorem svuotaTimer_quieto {n : Nat} (h : svuotaTimer n s = .ok t) : Quieto s t := by
  induction n generalizing s with
  | zero => cases h
  | succ n ih =>
    unfold svuotaTimer at h
    split at h
    · obtain rfl := Except.ok.inj h
      exact .refl s
    · rename_i z hz
      split at h
      · obtain ⟨s₁, h₁, h₂⟩ := bind_ok h
        refine Quieto.trans ?_ ((inserisciPronti_quieto h₁).trans
          (Quieto.trans (t := { s₁ with vive := s₁.vive.erase z }) (.of_des rfl rfl rfl) (ih h₂)))
        exact .assegna (s.ric z).proc (f := DesProc.pronto) (fun d => ⟨rfl, rfl, rfl, rfl, rfl⟩) rfl
          rfl rfl
      · obtain rfl := Except.ok.inj h
        exact .refl s

theorem scadenze_quieto (h : scadenze s = .ok t) : Quieto s t := by
  unfold scadenze at h
  simp only at h
  split at h
  · exact svuotaTimer_quieto h
  · exact Quieto.trans (t := Kernel.aggiornaRic s _ _) (.of_des rfl rfl rfl) (svuotaTimer_quieto h)

theorem turno_quieto (h : turno s = .ok t) : Quieto s t := by
  rcases turno_ok h with ⟨s₁, s₂, h₁, h₂, rfl⟩ | ⟨s₁, h₁, rfl⟩ | rfl
  · refine Quieto.trans ?_ ((inserisciPronti_quieto h₁).trans
      ((reschedule_quieto h₂).trans (schedulatore_quieto s₂)))
    exact Quieto.trans (t := { s with rescheduler := 0 }) (.of_des rfl rfl rfl)
      (.aggiorna _ _ fun d => ⟨rfl, rfl, rfl, rfl, rfl⟩)
  · exact Quieto.trans (t := { s with rescheduler := int32 (s.rescheduler + 1) })
      (.of_des rfl rfl rfl) ((inserisciPronti_quieto h₁).trans (schedulatore_quieto s₁))
  · exact .of_des rfl rfl rfl

/-! ## Signals -/

/-- A signal that is taken loses its bit and its handler. -/
def DesProc.preso (j : Fin SIGCOUNT) (d : DesProc) : DesProc :=
  { d with
    sigHandlers := Function.update d.sigHandlers j SIG_DFL
    sigMask := d.sigMask &&& ~~~((1 : Word) <<< j.val) }

/-- Then the handler that was there decides: the process is ended, or its handler entered, or
nothing more is done. -/
theorem handlesignals_ok (h : handlesignals s = .ok t) :
    ∃ j : Fin SIGCOUNT, getlsb (s.des s.esecuzione).sigMask = some j.val ∧
      (t = s.aggiorna s.esecuzione (DesProc.preso j) ∨
        (s.des s.esecuzione).sigHandlers j = SIG_DFL ∧ j.val = SIGQUIT ∧
          kiTerminateP (s.aggiorna s.esecuzione (DesProc.preso j)) = .ok t ∨
        (s.des s.esecuzione).sigHandlers j ≠ SIG_IGN ∧
          (s.des s.esecuzione).sigHandlers j ≠ SIG_DFL ∧
          (s.des s.esecuzione).sigHandlers j ≠ SIG_ERR ∧
          t = addApc s.esecuzione ((s.des s.esecuzione).sigHandlers j) (BitVec.ofNat 32 j.val)
            (s.aggiorna s.esecuzione (DesProc.preso j))) := by
  unfold handlesignals at h
  split at h
  · cases h
  · rename_i sig hsig
    have hlt := (getlsb_bit hsig).1
    refine ⟨⟨sig, hlt⟩, hsig, ?_⟩
    simp only [dif_pos hlt] at h
    split at h
    · exact Or.inl (Except.ok.inj h).symm
    · rename_i hign
      split at h
      · rename_i hdfl
        split at h
        · rename_i hquit
          exact Or.inr (Or.inl ⟨hdfl, hquit, h⟩)
        · exact Or.inl (Except.ok.inj h).symm
      · rename_i hdfl
        split at h
        · exact Or.inl (Except.ok.inj h).symm
        · rename_i herr
          exact Or.inr (Or.inr ⟨hign, hdfl, herr, (Except.ok.inj h).symm⟩)

theorem handlesignals_parti (h : handlesignals s = .ok t) :
    ∃ j : Fin SIGCOUNT, getlsb (s.des s.esecuzione).sigMask = some j.val ∧
      Conservati (s.aggiorna s.esecuzione (DesProc.preso j)) t := by
  obtain ⟨j, hj, rfl | ⟨_, _, hterm⟩ | ⟨_, _, _, rfl⟩⟩ := handlesignals_ok h
  · exact ⟨j, hj, .refl _⟩
  · exact ⟨j, hj, (kiTerminateP_quieto hterm).conservati⟩
  · exact ⟨j, hj, .of_des rfl⟩

theorem handlesignals_intatti (h : handlesignals s = .ok t) : Intatti s t := by
  obtain ⟨j, -, hc⟩ := handlesignals_parti h
  exact (Intatti.aggiorna s _ (f := DesProc.preso j) fun d => ⟨rfl, rfl⟩).trans hc.intatti

theorem pendenti_intatti
    (h : (if (s.des s.esecuzione).sigMask ≠ 0 then handlesignals s else .ok s) = .ok t) :
    Intatti s t := by
  split at h
  · exact handlesignals_intatti h
  · obtain rfl := Except.ok.inj h
    exact .refl s

theorem signalsCheck_intatti (h : signalsCheck s = .ok t) : Intatti s t :=
  pendenti_intatti (signalsCheck_ok h).2

theorem addebita_intatti (h : addebita s = .ok t) : Intatti s t :=
  Intatti.trans (.aggiorna s s.esecuzione (f := fun d => { d with tick := int32 (d.tick + 1) })
    fun _ => ⟨rfl, rfl⟩) (pendenti_intatti h)

theorem cdriverT_intatti (h : cdriverT s = .ok t) : Intatti s t := by
  obtain ⟨s₁, h₁, h₂⟩ := bind_ok h
  obtain ⟨s₂, h₂, h₃⟩ := bind_ok h₂
  exact (scadenze_quieto h₁).intatti.trans
    ((addebita_intatti h₂).trans (turno_quieto h₃).intatti)

theorem kiRaise_intatti (sig : Int) (s : Kernel) : Intatti s (kiRaise sig s).2 := by
  unfold kiRaise
  split
  · exact .refl s
  · exact .aggiorna s _ (f := fun d => { d with sigMask := _ }) fun _ => ⟨rfl, rfl⟩

theorem kiSignal_intatti (sig : Int) (func : Word) (s : Kernel) :
    Intatti s (kiSignal sig func s).2 := by
  unfold kiSignal
  split
  · exact .refl s
  · exact .aggiorna s _ (f := fun d => { d with sigHandlers := _ }) fun _ => ⟨rfl, rfl⟩

/-! ## The entries -/

/-- The event is an activation. -/
def Evento.Attiva : Evento → Prop
  | .chiamata (.activateP ..) => True
  | _ => False

theorem esegui_intatti {c : Chiamata} (h : esegui c s = .ok t) (hc : ¬ (Evento.chiamata c).Attiva) :
    Intatti s t := by
  cases c with
  | activateP f k prec idx risu stk => exact absurd trivial hc
  | terminateP => exact (kiTerminateP_quieto h).intatti
  | semIni valore idx risu =>
    obtain rfl := Except.ok.inj h
    exact (kiSemIni_conservati valore idx risu s).intatti
  | semWait hsem => exact (kiSemWait_quieto h).intatti
  | semSignal hsem => exact (kiSemSignal_quieto h).intatti
  | delay n z => exact (attendi_quieto h).intatti
  | signal sig func =>
    obtain rfl := Except.ok.inj h
    exact kiSignal_intatti sig func s
  | raise sig =>
    obtain rfl := Except.ok.inj h
    exact kiRaise_intatti sig s
  | sysGetOsName q len =>
    obtain rfl := Except.ok.inj h
    unfold kiSysGetOsName
    split
    · exact .refl s
    · exact .of_des rfl
  | _ =>
    obtain rfl := Except.ok.inj h
    exact .of_des rfl

/-- The way out of a call. -/
theorem uscita_intatti (h : (signalsCheck s >>= fun s => caricaStato s) = .ok t) :
    Intatti s t := by
  obtain ⟨s₁, h₁, h₂⟩ := bind_ok h
  exact (signalsCheck_intatti h₁).trans (caricaStato_quieto h₂).intatti

/-- An entry that is not an activation writes neither contexts nor stacks. -/
theorem passo_intatti {e : Evento} (h : passo s e = .ok t) (he : ¬ e.Attiva) : Intatti s t := by
  cases e with
  | chiamata c =>
    obtain ⟨s₁, h₁, h₂⟩ := bind_ok h
    exact (esegui_intatti h₁ he).trans (uscita_intatti h₂)
  | chiamataErrata =>
    obtain rfl := Except.ok.inj h
    exact .of_des rfl
  | tick =>
    obtain ⟨s₁, h₁, h₂⟩ := bind_ok h
    exact (cdriverT_intatti h₁).trans (caricaStato_quieto h₂).intatti
  | tasto code =>
    obtain rfl := Except.ok.inj h
    unfold loggingKbCallback
    simp only
    split
    · exact .of_des rfl
    · split
      · exact Intatti.trans (t := { s with kbChanged := 1, kbLast := code.toNat }) (.of_des rfl)
          (kiRaise_intatti _ _)
      · exact .of_des rfl
  | eccezione =>
    simp only [passo, handlerNoCode] at h
    split at h
    · cases h
    · obtain ⟨s₁, h₁, h₂⟩ := bind_ok h
      exact Intatti.trans (t := s.logShow) (.of_des rfl)
        ((kiTerminateP_quieto h₁).trans (caricaStato_quieto h₂)).intatti
  | ritorno =>
    obtain ⟨s₁, h₁, h₂⟩ := bind_ok h
    cases h₂

/-! ## Somebody has the CPU -/

theorem schedulatore_corrente (he : s.esecuzione ≠ none) : (schedulatore s).esecuzione ≠ none := by
  unfold schedulatore
  split
  · exact he
  · rintro ⟨⟩

theorem kiTerminateP_corrente (h : kiTerminateP s = .ok t) (he : s.esecuzione ≠ none) :
    t.esecuzione ≠ none := by
  obtain ⟨_, rfl⟩ := kiTerminateP_ok h
  exact schedulatore_corrente he

theorem handlesignals_corrente (h : handlesignals s = .ok t) (he : s.esecuzione ≠ none) :
    t.esecuzione ≠ none := by
  obtain ⟨j, _, rfl | ⟨_, _, hterm⟩ | ⟨_, _, _, rfl⟩⟩ := handlesignals_ok h
  · exact he
  · exact kiTerminateP_corrente hterm he
  · exact he

theorem pendenti_corrente
    (h : (if (s.des s.esecuzione).sigMask ≠ 0 then handlesignals s else .ok s) = .ok t)
    (he : s.esecuzione ≠ none) : t.esecuzione ≠ none := by
  split at h
  · exact handlesignals_corrente h he
  · obtain rfl := Except.ok.inj h
    exact he

theorem turno_corrente (h : turno s = .ok t) (he : s.esecuzione ≠ none) : t.esecuzione ≠ none := by
  rcases turno_ok h with ⟨s₁, s₂, h₁, h₂, rfl⟩ | ⟨s₁, h₁, rfl⟩ | rfl
  · apply schedulatore_corrente
    rw [(reschedule_code h₂).esecuzione, (inserisciPronti_code h₁).esecuzione]
    exact he
  · apply schedulatore_corrente
    rw [(inserisciPronti_code h₁).esecuzione]
    exact he
  · exact he

end

end Pitos
