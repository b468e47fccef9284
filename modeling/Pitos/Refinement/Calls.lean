import Pitos.Refinement.Alarms
import Pitos.Refinement.Handles

/-!
# The system calls are moves

Each `ki_` function, called by the running process in a state that represents `a`, returns in
a state that represents the end of one move from `a` (`esegui_mossa`); the label of the move
says what the call did (`Compie`). There is one exception: `ki_sem_signal` on a semaphore with
`count < 0` and an empty queue. It finds nobody to wake, compares priorities with what is at
address 0 and may make `esecuzione` null (`esegui_perso`).
-/

namespace Pitos

open Lib

/-- What a call by `p` may do. -/
def Compie (s : Kernel) (p : Pid) : Chiamata → Atto → Prop
  | .activateP _ _ prec _ _ _, t => t = .dati ∨ ∃ q, t = .attiva q prec
  | .terminateP, t => t = .termina p
  | .semIni valore _ _, t =>
    match s.cercaSem with
    | none => t = .dati
    | some i => t = .semIni i valore
  | .semWait hsem, t =>
    match maniglia hsem with
    | none => t = .dati
    | some i => t = .passa i ∨ t = .blocca i p
  | .semSignal hsem, t =>
    match maniglia hsem with
    | none => t = .dati
    | some i => t = .libera i ∨ ∃ q, t = .sveglia i q ∨ t = .cede i p q
  | .delay n z, t => t = .dorme (n.tdiv 50) (z, p)
  | _, t => t = .dati

/-- No call is a move of the keyboard or of the clock. -/
theorem Compie.diChiamata {s : Kernel} {p : Pid} {c : Chiamata} {t : Atto} (h : Compie s p c t) :
    t ≠ .chiude ∧ t ≠ .conta ∧ ¬ Turno t := by
  have hdati : Atto.dati ≠ .chiude ∧ Atto.dati ≠ .conta ∧ ¬ Turno .dati := by simp [Turno]
  cases c with
  | activateP f h' prec idx risu stk => rcases h with rfl | ⟨q, rfl⟩ <;> simp [Turno]
  | terminateP =>
    obtain rfl := show t = .termina p from h
    simp [Turno]
  | semIni valore idx risu =>
    simp only [Compie] at h
    split at h
    · exact h ▸ hdati
    · subst h
      simp [Turno]
  | semWait hsem =>
    simp only [Compie] at h
    split at h
    · exact h ▸ hdati
    · rcases h with rfl | rfl <;> simp [Turno]
  | semSignal hsem =>
    simp only [Compie] at h
    split at h
    · exact h ▸ hdati
    · rcases h with rfl | ⟨q, rfl | rfl⟩ <;> simp [Turno]
  | delay n z =>
    obtain rfl := show t = .dorme (n.tdiv 50) (z, p) from h
    simp [Turno]
  | _ => exact (show t = .dati from h) ▸ hdati

/-- `ki_sem_signal` finds an empty queue where `count` says that somebody waits. -/
def SegnaleVuoto (a : Astratto) : Chiamata → Prop
  | .semSignal hsem => ∃ i, maniglia hsem = some i ∧ int32 ((a.sem i).count + 1) ≤ 0 ∧
    (a.sem i).coda = []
  | _ => False

/-- `new` returns a record that is not in use. -/
def Fresco (vive : List Addr) : Chiamata → Prop
  | .delay _ z => z ∉ vive
  | _ => True

/-- The move that changes nothing. -/
theorem Mossa.ferma {a : Astratto} {p : Pid} (he : a.esecuzione = some p) (hp : p ≠ idle) :
    Mossa a .dati a := by
  have h := Mossa.dati p (a.dati p) he hp (.refl _)
  have ha : (a.aggiorna p fun _ => a.dati p) = a := by
    unfold Astratto.aggiorna
    rw [Function.update_eq_self]
  rwa [ha] at h

theorem Mossa.aggiorna {a : Astratto} {p : Pid} (he : a.esecuzione = some p) (hp : p ≠ idle)
    (f : DesProc → DesProc) (hf : ∀ d, StessoTurno d (f d)) : Mossa a .dati (a.aggiorna p f) :=
  Mossa.dati p (f (a.dati p)) he hp (hf _)

namespace Rappr

variable {s : Kernel} {a : Astratto} {p q : Pid} {i : Fin MAXSEMS}

/-! ## Activation and termination -/

/-- The search stops at the first free descriptor, and there is one while `proc_count` is
below its bound. -/
theorem cercaLibero_eq (hR : Rappr s a) (hconta : a.procCount = a.vivi.card)
    (hlt : s.procCount ≠ MAXPROCS) :
    ∃ q, s.cercaLibero = some q ∧ (a.dati q).stato = .FREE := by
  have hcard : a.vivi ≠ Finset.univ := by
    intro h
    apply hlt
    rw [hR.procCount, hconta, h]
    rfl
  obtain ⟨q, hq⟩ : ∃ q, q ∉ a.vivi := by
    by_contra h
    exact hcard (Finset.eq_univ_iff_forall.mpr (by simpa using h))
  cases hf : s.cercaLibero with
  | none =>
    have h := List.find?_eq_none.mp hf q (List.mem_finRange q)
    rw [hR.stato] at h
    simp at h hq
    exact absurd hq h
  | some r =>
    have h := List.find?_some hf
    rw [hR.stato] at h
    exact ⟨r, rfl, by simpa using h⟩

/-- The descriptor of a new process. -/
def nuovoDes (d : DesProc) (prec : Int) (stk : Fin 3 → Word) : DesProc :=
  { context := registriIniziali (stk 0 - 20) d.context
    stk := stk
    sigMask := 0
    prec := prec
    baseprec := prec
    next := none
    stato := .PRONTO
    tick := 0
    tickTotal := 0
    sigHandlers := fun _ => 0 }

theorem prepara (hR : Rappr s a) (hq : a.inCoda q = 0) (f h : Word) (prec level : Int)
    (stk : Fin 3 → Word) :
    Rappr (s.prepara (some q) f h prec level stk)
      (a.aggiorna q fun _ => nuovoDes (s.des (some q)) prec stk) := by
  have hR' := (hR.riscrivi hq (nuovoDes (s.des (some q)) prec stk)).setMem
    (s.pilaIniziale f h level stk)
  have hdes : s.prepara (some q) f h prec level stk = { s with
      des := Function.update s.des (some q) (nuovoDes (s.des (some q)) prec stk)
      mem := s.pilaIniziale f h level stk } := by
    simp only [Kernel.prepara, Kernel.aggiorna, Function.update_self, Function.update_idem, nuovoDes]
    rfl
  rw [hdes]
  exact hR'

/-- `ki_activate_p_level` fills the table or makes the first free descriptor a ready process. -/
theorem kiActivatePLevel_eq (hR : Rappr s a) (hS : Separati a)
    (hconta : a.procCount = a.vivi.card) (hfree : ∀ q, (a.dati q).stato = .FREE → a.inCoda q = 0)
    (he : a.esecuzione ≠ some idle) (f h : Word) (prec level : Int) (idx risu : Word)
    (stk : Fin 3 → Word) :
    ∃ s', kiActivatePLevel f h prec level idx risu stk s = .ok s' ∧
      ((s.procCount = MAXPROCS ∧ Rappr s' a) ∨
        ∃ q b, s.cercaLibero = some q ∧ Mossa a (.attiva q prec) b ∧ Rappr s' b) := by
  by_cases hlt : s.procCount = MAXPROCS
  · refine ⟨{ s with mem := s.mem.write8 risu 0 }, ?_, Or.inl ⟨hlt, hR.setMem _⟩⟩
    simp only [kiActivatePLevel, hlt, if_true]
    rfl
  · obtain ⟨q, hq, hqf⟩ := hR.cercaLibero_eq hconta hlt
    have hq0 := hfree q hqf
    let d := nuovoDes (s.des (some q)) prec stk
    have hR₁ := (((hR.setProcCount (int32 (s.procCount + 1))).setMem
      (s.mem.write32 idx (BitVec.ofNat 32 q))).prepara hq0 f h prec (clamp level 0 3) stk)
    have hb : (a.setProcCount (int32 (s.procCount + 1))).aggiorna q (fun _ => d) =
        (a.aggiorna q fun _ => d).setProcCount (int32 (a.procCount + 1)) := by
      rw [hR.procCount]
      rfl
    rw [hb] at hR₁
    obtain ⟨s₂, heq, hR₂⟩ := hR₁.inserisciPronti hS hq0
    have hq' : ({ s with procCount := int32 (s.procCount + 1) } : Kernel).cercaLibero = some q := hq
    refine ⟨{ s₂ with mem := s₂.mem.write8 risu 1 }, ?_, Or.inr ⟨q, _, hq,
      Mossa.attiva q d he hqf rfl rfl rfl rfl rfl rfl, hR₂.setMem _⟩⟩
    simp only [kiActivatePLevel, hlt, if_false, hq', heq]
    rfl

theorem pronti_ne_none (hR : Rappr s a) (h : a.pronti ≠ []) : s.pronti ≠ none := by
  intro hnone
  have := hR.pronti
  rw [hnone] at this
  exact h (Linked.none_iff.mp this)

theorem kiTerminateP_eq (hR : Rappr s a) (hI : Inv a) (he : a.esecuzione = some p)
    (hp : p ≠ idle) :
    ∃ s' b, kiTerminateP s = .ok s' ∧ Mossa a (.termina p) b ∧ Rappr s' b := by
  have hR₁ := (hR.aggiorna p DesProc.libero).setProcCount (int32 (s.procCount - 1))
  have hne : s.pronti ≠ none := hR.pronti_ne_none (hI.pronti_ne_nil he hp)
  refine ⟨Pitos.schedulatore { s.aggiorna (some p) DesProc.libero with
    procCount := int32 (s.procCount - 1) }, _, ?_, Mossa.termina p he hp, ?_⟩
  · simp only [kiTerminateP, hR.esecuzione, he]
    exact if_neg hne
  · rw [hR.procCount] at hR₁ ⊢
    exact hR₁.schedulatore hI.separati

/-- When nobody is ready the end of the idle process halts the kernel. -/
theorem kiTerminateP_idle (hR : Rappr s a) (he : a.esecuzione = some idle) (hnil : a.pronti = []) :
    ∃ s', kiTerminateP s = .error (.halt s') ∧
      ∀ p, (s'.des (some p)).stato ≠ .FREE ↔ p ≠ idle ∧ p ∈ a.vivi := by
  have hnone : s.pronti = none := by
    have := hR.pronti
    rw [hnil] at this
    exact Linked.nil_iff.mp this
  refine ⟨_, if_pos hnone, fun p => ?_⟩
  have hesec : s.esecuzione = some idle := hR.esecuzione.trans he
  simp only [Kernel.logShow, Kernel.aggiorna, hesec]
  by_cases hp : p = idle
  · subst hp
    simp
  · simp [hp, hR.stato]

/-! ## Semaphores -/

theorem kiSemIni_eq (hR : Rappr s a) (valore : Int) (idx risu : Word) :
    (s.cercaSem = none ∧ Rappr (kiSemIni valore idx risu s) a) ∨ ∃ i b, s.cercaSem = some i ∧
      Mossa a (.semIni i valore) b ∧ Rappr (kiSemIni valore idx risu s) b := by
  unfold kiSemIni
  cases hc : s.cercaSem with
  | none => exact Or.inl ⟨rfl, hR.setMem _⟩
  | some i =>
    have hbusy := hR.busy i ▸ cercaSem_eq hc
    refine Or.inr ⟨i, _, rfl, Mossa.semIni i valore hbusy, ?_⟩
    exact ⟨hR.dati, hR.esecuzione, hR.pronti,
      update_sem ⟨Linked.nil, rfl, rfl⟩ fun j _ => hR.sem j,
      hR.timer, hR.proc, hR.dattesa, hR.vive, hR.procCount, hR.rescheduler⟩

theorem separati_setCoda_insert (hI : Inv a) (hp : a.inCoda p = 0) {c : Int} :
    Separati ((a.setCount i c).setCoda i (insertByKey a.prec p (a.sem i).coda)) := by
  intro q
  have h := Astratto.inCoda_setCoda (a := a.setCount i c) (i := i) (q := q)
    (l := insertByKey a.prec p (a.sem i).coda)
  simp only [Astratto.sem_setCount_self, Astratto.inCoda_setCount, count_insertByKey] at h
  have hq := hI.inCoda_le q
  split at h
  · rename_i hpq
    subst hpq
    omega
  · omega

theorem kiSemWait_eq (hR : Rappr s a) (hI : Inv a) (he : a.esecuzione = some p) (hp : p ≠ idle)
    (hsem : Int) :
    ∃ s' t b, kiSemWait hsem s = .ok s' ∧ Compie s p (.semWait hsem) t ∧ Mossa a t b ∧
      Rappr s' b := by
  cases hm : maniglia hsem with
  | none =>
    refine ⟨s, .dati, a, by simp only [kiSemWait, hm]; rfl, by simp only [Compie, hm],
      Mossa.ferma he hp, hR⟩
  | some i =>
    simp only [kiSemWait, Compie, hm]
    have hR₁ := hR.setCount i (int32 ((a.sem i).count - 1))
    have hcount : ((s.setCount i (int32 ((a.sem i).count - 1))).dessem i).count =
        int32 ((a.sem i).count - 1) := by simp [Kernel.setCount]
    simp only [hR.count, hcount]
    by_cases hc : int32 ((a.sem i).count - 1) < 0
    · have hp0 := hI.inCoda_esecuzione he
      have hS₁ : Separati (a.setCount i (int32 ((a.sem i).count - 1))) := fun q =>
        (Astratto.inCoda_setCount _).trans_le (hI.inCoda_le q)
      obtain ⟨s₂, heq, hR₂⟩ := hR₁.inserisciSem (i := i) hS₁ ((Astratto.inCoda_setCount _).trans hp0)
      rw [Astratto.sem_setCount_self] at hR₂
      refine ⟨Pitos.schedulatore s₂, .blocca i p, _, ?_, Or.inr rfl, Mossa.blocca i p he hp hc,
        hR₂.schedulatore (separati_setCoda_insert hI hp0)⟩
      have hesec : (s.setCount i (int32 ((a.sem i).count - 1))).esecuzione = some p :=
        hR.esecuzione.trans he
      simp only [if_pos hc, hesec, heq]
      rfl
    · refine ⟨_, .passa i, _, ?_, Or.inl rfl, Mossa.passa i (not_lt.mp hc), hR₁⟩
      simp only [if_neg hc]
      rfl

theorem kiSemSignal_eq (hR : Rappr s a) (hI : Inv a) (he : a.esecuzione = some p) (hp : p ≠ idle)
    (hsem : Int) (hv : ¬ SegnaleVuoto a (.semSignal hsem)) :
    ∃ s' t b, kiSemSignal hsem s = .ok s' ∧ Compie s p (.semSignal hsem) t ∧ Mossa a t b ∧
      Rappr s' b := by
  cases hm : maniglia hsem with
  | none =>
    refine ⟨s, .dati, a, by simp only [kiSemSignal, hm]; rfl, by simp only [Compie, hm],
      Mossa.ferma he hp, hR⟩
  | some i =>
    simp only [kiSemSignal, Compie, hm]
    let a₁ := a.setCount i (int32 ((a.sem i).count + 1))
    have hR₁ : Rappr _ a₁ := hR.setCount i (int32 ((a.sem i).count + 1))
    have hcount : ((s.setCount i (int32 ((a.sem i).count + 1))).dessem i).count =
        int32 ((a.sem i).count + 1) := by simp [Kernel.setCount]
    have hesec : (s.setCount i (int32 ((a.sem i).count + 1))).esecuzione = some p :=
      hR.esecuzione.trans he
    rw [hR.count]
    generalize s.setCount i (int32 ((a.sem i).count + 1)) = s₁ at hR₁ hcount hesec ⊢
    simp only [hcount]
    by_cases hc : int32 ((a.sem i).count + 1) ≤ 0
    · cases hq : (a.sem i).coda with
      | nil => exact absurd ⟨i, hm, hc, hq⟩ hv
      | cons q l =>
        have hS₁ : Separati a₁ := fun q => (Astratto.inCoda_setCount _).trans_le (hI.inCoda_le q)
        have hq₁ : (a₁.sem i).coda = q :: l := by rw [Astratto.sem_setCount_self, hq]
        obtain ⟨des, coda, hrim, hR₂⟩ := hR₁.rimozioneCoda hS₁ hq₁
        obtain ⟨hS₂, hq0⟩ := hS₁.setCoda hq₁
        have hp0 : (a₁.setCoda i l).inCoda p = 0 := by
          have h := Astratto.inCoda_setCoda (a := a₁) (i := i) (q := p) (l := l)
          have h1 : a₁.inCoda p = 0 :=
            (Astratto.inCoda_setCount _).trans (hI.inCoda_esecuzione he)
          rw [hq₁, List.count_cons] at h
          omega
        have hprecp : (des (some p)).prec = a.prec p := hR₂.prec p
        have hprecq : (des (some q)).prec = a.prec q := hR₂.prec q
        simp only [hc, if_true, hrim, hesec, hprecp, hprecq]
        by_cases hle : a.prec q ≤ a.prec p
        · obtain ⟨s₃, heq, hR₃⟩ := hR₂.inserisciPronti hS₂ hp0
          refine ⟨_, .cede i p q, _, ?_, Or.inr ⟨q, Or.inr rfl⟩,
            Mossa.cede i p q l he hc hq hle, (hR₃.setEsecuzione (some q)).aggiorna q DesProc.pronto⟩
          simp only [hcount, hesec] at heq
          simp only [hle, if_true, heq]
          rfl
        · obtain ⟨s₃, heq, hR₃⟩ := hR₂.inserisciPronti hS₂ hq0
          refine ⟨s₃, .sveglia i q, _, ?_, Or.inr ⟨q, Or.inl rfl⟩,
            Mossa.sveglia i p q l he hc hq (not_le.mp hle), hR₃⟩
          simp only [hcount, hesec] at heq
          simp only [hle, if_false, heq]
    · refine ⟨_, .libera i, _, ?_, Or.inl rfl, Mossa.libera i (Or.inl (not_le.mp hc)), hR₁⟩
      simp only [if_neg hc]
      rfl

/-- A signal to a semaphore where nobody waits though `count` says so: either it goes on like
one that wakes nobody, or `esecuzione` becomes null. What stands at address 0 decides. -/
theorem kiSemSignal_vuoto (hR : Rappr s a) (hI : Inv a) (he : a.esecuzione = some p) (hsem : Int)
    (hv : SegnaleVuoto a (.semSignal hsem)) :
    ∃ s', kiSemSignal hsem s = .ok s' ∧
      (s'.esecuzione = none ∧ (s'.des (some p)).stato = (s.des (some p)).stato ∨
        (s.des (some p)).prec < (s.des none).prec ∧
          ∃ i b, maniglia hsem = some i ∧ Mossa a (.libera i) b ∧ Rappr s' b) := by
  have hstato := hR.stato p
  obtain ⟨i, hm, hc, hq⟩ := hv
  simp only [kiSemSignal, hm]
  have hR₁ := hR.setCount i (int32 ((a.sem i).count + 1))
  have hcount : ((s.setCount i (int32 ((a.sem i).count + 1))).dessem i).count =
      int32 ((a.sem i).count + 1) := by simp [Kernel.setCount]
  rw [hR.count]
  have hcoda : ((s.setCount i (int32 ((a.sem i).count + 1))).dessem i).coda = none := by
    have := hR₁.coda i
    rw [Astratto.sem_setCount_self, hq] at this
    exact Linked.nil_iff.mp this
  have hesec : (s.setCount i (int32 ((a.sem i).count + 1))).esecuzione = some p :=
    hR.esecuzione.trans he
  have hdes : (s.setCount i (int32 ((a.sem i).count + 1))).des = s.des := rfl
  generalize s.setCount i (int32 ((a.sem i).count + 1)) = s₁ at hR₁ hcount hcoda hesec hdes ⊢
  have hrim : Pitos.rimozioneCoda s₁.des (s₁.dessem i).coda = (s₁.des, none, none) := by
    rw [hcoda]
    rfl
  have hR₂ : Rappr { s₁ with
      des := s₁.des, dessem := Function.update s₁.dessem i { s₁.dessem i with coda := none } }
      (a.setCount i (int32 ((a.sem i).count + 1))) := by
    have h : Function.update s₁.dessem i { s₁.dessem i with coda := none } = s₁.dessem := by
      rw [← hcoda]
      exact Function.update_eq_self i s₁.dessem
    rw [h]
    exact hR₁
  simp only [hcount, hesec] at hR₂
  simp only [hcount, hc, if_true, hrim, hesec]
  split
  · obtain ⟨s₃, heq, hR₃⟩ := hR₂.inserisciPronti
      (fun q => (Astratto.inCoda_setCount _).trans_le (hI.inCoda_le q))
      ((Astratto.inCoda_setCount _).trans (hI.inCoda_esecuzione he))
    rw [heq]
    exact ⟨_, rfl, Or.inl ⟨rfl, (hR₃.stato p).trans hstato.symm⟩⟩
  · rename_i hprec
    rw [hdes] at hprec
    exact ⟨_, rfl, Or.inr ⟨not_le.mp hprec, i, _, rfl, Mossa.libera i (Or.inr hq), hR₂⟩⟩

/-! ## Signals -/

theorem kiRaise_eq (hR : Rappr s a) (he : a.esecuzione = some p) (hp : p ≠ idle)
    (sig : Int) :
    ∃ b, Mossa a .dati b ∧ Rappr (kiRaise sig s).2 b := by
  have hesec : s.esecuzione = some p := hR.esecuzione.trans he
  unfold kiRaise
  rw [hesec]
  cases segnale sig with
  | none => exact ⟨a, Mossa.ferma he hp, hR⟩
  | some i =>
    let f : DesProc → DesProc := fun d => { d with sigMask := d.sigMask ||| (1 : Word) <<< i.val }
    exact ⟨a.aggiorna p f, Mossa.aggiorna he hp f fun d => ⟨rfl, rfl, rfl, rfl, rfl⟩, hR.aggiorna p f⟩

theorem kiSignal_eq (hR : Rappr s a) (he : a.esecuzione = some p) (hp : p ≠ idle)
    (sig : Int) (func : Word) :
    ∃ b, Mossa a .dati b ∧ Rappr (kiSignal sig func s).2 b := by
  have hesec : s.esecuzione = some p := hR.esecuzione.trans he
  unfold kiSignal
  rw [hesec]
  cases segnale sig with
  | none => exact ⟨a, Mossa.ferma he hp, hR⟩
  | some i =>
    let f : DesProc → DesProc := fun d =>
      { d with sigHandlers := Function.update d.sigHandlers i func }
    exact ⟨a.aggiorna p f, Mossa.aggiorna he hp f fun d => ⟨rfl, rfl, rfl, rfl, rfl⟩, hR.aggiorna p f⟩

/-! ## All calls -/

/-- A call of the running process is one move. -/
theorem esegui_mossa (hR : Rappr s a) (hI : Inv a) (he : a.esecuzione = some p) (hp : p ≠ idle)
    (c : Chiamata) (hf : Fresco a.vive c) (hv : ¬ SegnaleVuoto a c) :
    ∃ s' t b, esegui c s = .ok s' ∧ Compie s p c t ∧ Mossa a t b ∧ Rappr s' b := by
  cases c with
  | activateP f h prec idx risu stk =>
    obtain ⟨s', heq, ⟨-, h'⟩ | ⟨q, b, -, hm, h'⟩⟩ := hR.kiActivatePLevel_eq hI.separati hI.conta
      (fun q hq => hI.inCoda_of_free hq) (fun e => hp (Option.some.inj (he.symm.trans e)))
        f h prec 3 idx risu stk
    · exact ⟨s', .dati, a, heq, Or.inl rfl, Mossa.ferma he hp, h'⟩
    · exact ⟨s', .attiva q prec, b, heq, Or.inr ⟨q, rfl⟩, hm, h'⟩
  | terminateP =>
    obtain ⟨s', b, heq, hm, h'⟩ := hR.kiTerminateP_eq hI he hp
    exact ⟨s', .termina p, b, heq, rfl, hm, h'⟩
  | semIni valore idx risu =>
    rcases hR.kiSemIni_eq valore idx risu with ⟨hc, h'⟩ | ⟨i, b, hc, hm, h'⟩
    · exact ⟨_, .dati, a, rfl, by simp only [Compie, hc], Mossa.ferma he hp, h'⟩
    · exact ⟨_, .semIni i valore, b, rfl, by simp only [Compie, hc], hm, h'⟩
  | semWait hsem => exact hR.kiSemWait_eq hI he hp hsem
  | semSignal hsem => exact hR.kiSemSignal_eq hI he hp hsem hv
  | delay n z =>
    obtain ⟨s', heq, h'⟩ := hR.attendi_eq hI he hf (d := n.tdiv 50)
    exact ⟨s', .dorme (n.tdiv 50) (z, p), _, heq, rfl, Mossa.dorme _ (z, p) he hp hf, h'⟩
  | signal sig func =>
    obtain ⟨b, hm, h'⟩ := hR.kiSignal_eq he hp sig func
    exact ⟨_, .dati, b, rfl, rfl, hm, h'⟩
  | raise sig =>
    obtain ⟨b, hm, h'⟩ := hR.kiRaise_eq he hp sig
    exact ⟨_, .dati, b, rfl, rfl, hm, h'⟩
  | sysGetOsName q len =>
    refine ⟨_, .dati, a, rfl, rfl, Mossa.ferma he hp, ?_⟩
    unfold kiSysGetOsName
    split
    · exact hR
    · exact hR.setMem _
  | print buf page => exact ⟨s, .dati, a, rfl, rfl, Mossa.ferma he hp, hR⟩
  | free q => exact ⟨s, .dati, a, rfl, rfl, Mossa.ferma he hp, hR⟩
  | getTick low hi tscLow tscHi => exact ⟨_, .dati, a, rfl, rfl, Mossa.ferma he hp, hR.setMem _⟩
  | getPri pri => exact ⟨_, .dati, a, rfl, rfl, Mossa.ferma he hp, hR.setMem _⟩
  | getBasepri pri => exact ⟨_, .dati, a, rfl, rfl, Mossa.ferma he hp, hR.setMem _⟩
  | getPid q => exact ⟨_, .dati, a, rfl, rfl, Mossa.ferma he hp, hR.setMem _⟩
  | signalrespin => exact ⟨_, .dati, a, rfl, rfl, Mossa.ferma he hp, hR.setMem _⟩
  | malloc size q r => exact ⟨_, .dati, a, rfl, rfl, Mossa.ferma he hp, hR.setMem _⟩

end Rappr

end Pitos
