import Pitos.Kernel.Start
import Pitos.Refinement.Registers

/-!
# The table of semaphores

What the search of `ki_sem_ini` finds, and who writes `dessem`: the three semaphore calls only.
Everything else the kernel runs leaves the whole table as it is, from any state and without an
invariant. `kernel_init` clears `busy` and nothing more.
-/

namespace Pitos

open Lib

/-! ## The search -/

/-- The loop of `ki_sem_ini` keeps the last place that is not taken. The induction is on the
places seen so far, in their order. -/
theorem foldl_ultimo {n : Nat} (preso : Fin n → Bool) {l : List (Fin n)}
    (hl : l.Pairwise (· < ·)) :
    let r := l.foldl (fun p i => if preso i then p else some i) none
    (r = none → ∀ i ∈ l, preso i = true) ∧
      ∀ i, r = some i → i ∈ l ∧ preso i = false ∧ ∀ j ∈ l, i < j → preso j = true := by
  induction l using List.reverseRecOn with
  | nil => exact ⟨fun _ i hi => absurd hi List.not_mem_nil, fun i hi => by cases hi⟩
  | append_singleton l a ih =>
    obtain ⟨hl', -, hlast⟩ := List.pairwise_append.mp hl
    obtain ⟨hnone, hsome⟩ := ih hl'
    simp only [List.foldl_append, List.foldl_cons, List.foldl_nil]
    cases ha : preso a with
    | true =>
      refine ⟨fun hr i hi => ?_, fun i hr => ?_⟩
      · rcases List.mem_append.mp hi with hi | hi
        · exact hnone (by simpa using hr) i hi
        · rwa [List.mem_singleton.mp hi]
      · obtain ⟨hi, hfree, hafter⟩ := hsome i (by simpa using hr)
        refine ⟨List.mem_append_left _ hi, hfree, fun j hj hij => ?_⟩
        rcases List.mem_append.mp hj with hj | hj
        · exact hafter j hj hij
        · rwa [List.mem_singleton.mp hj]
    | false =>
      refine ⟨fun hr => by simp at hr, fun i hr => ?_⟩
      obtain rfl : a = i := by simpa using hr
      refine ⟨by simp, ha, fun j hj hij => ?_⟩
      rcases List.mem_append.mp hj with hj | hj
      · exact absurd (hlast j hj a List.mem_cons_self) (not_lt_of_gt hij)
      · exact absurd (List.mem_singleton.mp hj).symm (ne_of_lt hij)

/-- What the search returns is free. -/
theorem cercaSem_eq {s : Kernel} {i : Fin MAXSEMS} (h : s.cercaSem = some i) :
    (s.dessem i).busy = false :=
  ((foldl_ultimo (fun i => (s.dessem i).busy) (List.pairwise_lt_finRange MAXSEMS)).2 i h).2.1

/-! ## Everything but the semaphore calls -/

section

variable {s t : Kernel} {p : DesPtr}

theorem schedulatore_dessem (s : Kernel) : (schedulatore s).dessem = s.dessem := by
  unfold schedulatore
  split
  · rfl
  · simp only
    split <;> rfl

theorem kiTerminateP_dessem (h : kiTerminateP s = .ok t) : t.dessem = s.dessem := by
  obtain ⟨_, rfl⟩ := kiTerminateP_ok h
  exact schedulatore_dessem _

/-! ## The timer -/

theorem attendi_dessem {d : Int} {z : Addr} (h : attendi d z s = .ok t) :
    t.dessem = s.dessem := by
  obtain ⟨s₁, h₁, h₂⟩ := bind_ok h
  obtain rfl := Except.ok.inj h₂
  have hins := (inserimentoCodaTimer_code h₁).dessem
  exact (schedulatore_dessem s₁).trans hins

theorem turno_dessem (h : turno s = .ok t) : t.dessem = s.dessem := by
  rcases turno_ok h with ⟨s₁, s₂, h₁, h₂, rfl⟩ | ⟨s₁, h₁, rfl⟩ | rfl
  · have hins := (inserisciPronti_code h₁).dessem
    exact (schedulatore_dessem s₂).trans ((reschedule_code h₂).dessem.trans hins)
  · have hins := (inserisciPronti_code h₁).dessem
    exact (schedulatore_dessem s₁).trans hins
  · rfl

/-! ## Signals and the way out -/

theorem handlesignals_dessem (h : handlesignals s = .ok t) : t.dessem = s.dessem := by
  obtain ⟨j, _, rfl | ⟨_, _, hterm⟩ | ⟨_, _, _, rfl⟩⟩ := handlesignals_ok h
  · rfl
  · have hrest := kiTerminateP_dessem hterm
    exact hrest
  · rfl

theorem pendenti_dessem
    (h : (if (s.des s.esecuzione).sigMask ≠ 0 then handlesignals s else .ok s) = .ok t) :
    t.dessem = s.dessem := by
  split at h
  · exact handlesignals_dessem h
  · obtain rfl := Except.ok.inj h
    rfl

theorem caricaStato_dessem (h : caricaStato s = .ok t) : t.dessem = s.dessem := by
  obtain ⟨_, rfl⟩ := caricaStato_ok h
  rfl

theorem uscita_dessem (h : (signalsCheck s >>= fun s => caricaStato s) = .ok t) :
    t.dessem = s.dessem := by
  obtain ⟨s₁, h₁, h₂⟩ := bind_ok h
  exact (caricaStato_dessem h₂).trans (pendenti_dessem (signalsCheck_ok h₁).2)

theorem cdriverT_dessem (h : cdriverT s = .ok t) : t.dessem = s.dessem := by
  obtain ⟨s₁, h₁, h₂⟩ := bind_ok h
  obtain ⟨s₂, h₂, h₃⟩ := bind_ok h₂
  unfold addebita at h₂
  have hpend := pendenti_dessem h₂
  have hadd : s₂.dessem = s₁.dessem := hpend
  exact (turno_dessem h₃).trans (hadd.trans (scadenze_code h₁).dessem)

theorem kiRaise_dessem (sig : Int) (s : Kernel) : (kiRaise sig s).2.dessem = s.dessem := by
  unfold kiRaise
  split <;> rfl

theorem loggingKbCallback_dessem (code : BitVec 8) (s : Kernel) :
    (loggingKbCallback code s).dessem = s.dessem := by
  unfold loggingKbCallback
  simp only
  split
  · rfl
  · split
    · exact kiRaise_dessem _ _
    · rfl

/-! ## The entries -/

/-- The call is one of the three on semaphores. -/
def Chiamata.Semaforica : Chiamata → Prop
  | .semIni .. => True
  | .semWait _ => True
  | .semSignal _ => True
  | _ => False

theorem esegui_dessem {c : Chiamata} (h : esegui c s = .ok t) (hc : ¬ c.Semaforica) :
    t.dessem = s.dessem := by
  cases c with
  | activateP f k prec idx risu stk => exact (kiActivatePLevel_code h).dessem
  | terminateP => exact kiTerminateP_dessem h
  | semIni valore idx risu => exact absurd trivial hc
  | semWait hsem => exact absurd trivial hc
  | semSignal hsem => exact absurd trivial hc
  | delay n z => exact attendi_dessem h
  | signal sig func =>
    obtain rfl := Except.ok.inj h
    unfold kiSignal
    split <;> rfl
  | raise sig =>
    obtain rfl := Except.ok.inj h
    exact kiRaise_dessem sig s
  | sysGetOsName q len =>
    obtain rfl := Except.ok.inj h
    unfold kiSysGetOsName
    split <;> rfl
  | _ =>
    obtain rfl := Except.ok.inj h
    rfl

/-- What an entry does to `dessem` is what its call does. -/
theorem passo_dessem {e : Evento} (h : passo s e = .ok t) :
    (∃ c s₁, e = .chiamata c ∧ esegui c s = .ok s₁ ∧ t.dessem = s₁.dessem) ∨
      t.dessem = s.dessem := by
  cases e with
  | chiamata c =>
    obtain ⟨s₁, h₁, h₂⟩ := bind_ok h
    exact Or.inl ⟨c, s₁, rfl, h₁, uscita_dessem h₂⟩
  | chiamataErrata =>
    obtain rfl := Except.ok.inj h
    exact Or.inr rfl
  | tick =>
    obtain ⟨s₁, h₁, h₂⟩ := bind_ok h
    exact Or.inr ((caricaStato_dessem h₂).trans (cdriverT_dessem h₁))
  | tasto code =>
    obtain rfl := Except.ok.inj h
    exact Or.inr (loggingKbCallback_dessem code s)
  | eccezione =>
    simp only [passo, handlerNoCode] at h
    split at h
    · cases h
    · obtain ⟨s₁, h₁, h₂⟩ := bind_ok h
      have hterm := kiTerminateP_dessem h₁
      exact Or.inr ((caricaStato_dessem h₂).trans hterm)
  | ritorno =>
    obtain ⟨s₁, h₁, h₂⟩ := bind_ok h
    cases h₂

/-! ## The semaphore calls -/

/-- `ki_sem_wait` and `ki_sem_signal` assign `count` and `coda` of the semaphore they are given,
and `count` always. -/
theorem kiSemWait_dessem {hsem : Int} {i : Fin MAXSEMS} (hi : maniglia hsem = some i)
    (h : kiSemWait hsem s = .ok t) : ∃ coda, t.dessem = Function.update s.dessem i
      { s.dessem i with coda, count := int32 ((s.dessem i).count - 1) } := by
  simp only [kiSemWait, hi] at h
  split at h
  · obtain ⟨s₁, h₁, h₂⟩ := bind_ok h
    obtain rfl := Except.ok.inj h₂
    rw [schedulatore_dessem]
    unfold Kernel.inserisciSem at h₁
    split at h₁
    · cases h₁
    · rename_i des coda heq
      obtain rfl := Except.ok.inj h₁
      exact ⟨coda, by simp [Kernel.setCount]⟩
  · obtain rfl := Except.ok.inj h
    exact ⟨(s.dessem i).coda, rfl⟩

theorem kiSemSignal_dessem {hsem : Int} {i : Fin MAXSEMS} (hi : maniglia hsem = some i)
    (h : kiSemSignal hsem s = .ok t) : ∃ coda, t.dessem = Function.update s.dessem i
      { s.dessem i with coda, count := int32 ((s.dessem i).count + 1) } := by
  simp only [kiSemSignal, hi] at h
  split at h
  · split at h
    · obtain ⟨s₁, h₁, h₂⟩ := bind_ok h
      obtain rfl := Except.ok.inj h₂
      have hins := (inserisciPronti_code h₁).dessem
      exact ⟨_, hins.trans (by simp [Kernel.setCount]; rfl)⟩
    · have hins := (inserisciPronti_code h).dessem
      exact ⟨_, hins.trans (by simp [Kernel.setCount]; rfl)⟩
  · obtain rfl := Except.ok.inj h
    exact ⟨(s.dessem i).coda, rfl⟩

/-- A semaphore that `ki_sem_ini` writes was free; it is busy then. -/
theorem kiSemIni_dessem (valore : Int) (idx risu : Word) (s : Kernel) :
    (kiSemIni valore idx risu s).dessem = s.dessem ∨ ∃ i, (s.dessem i).busy = false ∧
      (kiSemIni valore idx risu s).dessem =
        Function.update s.dessem i { coda := none, count := valore, busy := true } := by
  cases hc : s.cercaSem with
  | none => simp only [kiSemIni, hc, true_or]
  | some i =>
    refine Or.inr ⟨i, cercaSem_eq hc, ?_⟩
    simp only [kiSemIni, hc]

/-! ## The start -/

/-- `kernel_init` clears `busy` everywhere. -/
theorem kernelInit_dessem {dummy risu : Word} {stk : Fin 3 → Word}
    (h : kernelInit dummy risu stk s = .ok t) :
    t.dessem = fun i => { s.dessem i with busy := false } :=
  (kiActivatePLevel_code h).dessem

theorem kernelGo_dessem (h : kernelGo s = .ok t) : t.dessem = s.dessem := by
  obtain ⟨s₁, rfl | rfl, h₁⟩ := kernelGo_ok h
  · exact caricaStato_dessem h₁
  · exact (caricaStato_dessem h₁).trans (schedulatore_dessem s)

end

end Pitos
