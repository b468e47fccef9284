import Pitos.Refinement.Execution

/-!
# Handles that were never issued

`maniglie_inerti`: `ki_sem_wait` and `ki_sem_signal` check that a handle is in the table and not
that the semaphore is busy. So a handle outside the table is inert, and one inside it never is.
As long as the processes use handles that are issued or outside the table, a semaphore that is
not busy has no queue, and `ki_sem_ini` loses nobody.
-/

namespace Pitos

open Lib

/-- The handle is outside the table, or `ki_sem_ini` has not returned it yet. -/
def NonEmessa (s : Kernel) (hsem : Int) : Prop :=
  ∀ i, maniglia hsem = some i → (s.dessem i).busy = false

/-- The calls on semaphores use handles that are outside the table or were issued. -/
def UsaEmesse (x : Avanzamento) : Fatto → Prop
  | .entrata (.chiamata (.semWait hsem)) =>
    ∀ i, maniglia hsem = some i → (x.kernel.dessem i).busy = true
  | .entrata (.chiamata (.semSignal hsem)) =>
    ∀ i, maniglia hsem = some i → (x.kernel.dessem i).busy = true
  | _ => True

/-- No semaphore that is not busy has a queue. -/
def LiberiVuoti (s : Kernel) : Prop :=
  ∀ i, (s.dessem i).busy = false → (s.dessem i).coda = none

theorem maniglia_none {hsem : Int} :
    maniglia hsem = none ↔ ¬ (0 ≤ hsem ∧ hsem ≤ MAXSEMS - 1) := by
  unfold maniglia
  split
  · rename_i h
    exact ⟨nofun, fun h' => absurd h h'⟩
  · rename_i h
    exact ⟨fun _ => h, fun _ => rfl⟩

/-- An `int` is never what it is after one more or one less. -/
theorem int32_ne {x d : Int} (hd : d = 1 ∨ d = -1) : int32 (x + d) ≠ x := by
  intro h
  have hmod := Int.bmod_emod (x := x + d) (m := 2 ^ 32)
  unfold int32 at h
  rw [h] at hmod
  omega

section

variable {s t : Kernel} {hsem : Int} {i : Fin MAXSEMS}

theorem kiSemWait_none (hi : maniglia hsem = none) : kiSemWait hsem s = .ok s := by
  rw [kiSemWait, hi]
  rfl

theorem kiSemSignal_none (hi : maniglia hsem = none) : kiSemSignal hsem s = .ok s := by
  rw [kiSemSignal, hi]
  rfl

/-- A handle in the table is used, issued or not. -/
theorem kiSemWait_muove (hi : maniglia hsem = some i) : kiSemWait hsem s ≠ .ok s := by
  intro h
  obtain ⟨coda, heq⟩ := kiSemWait_dessem hi h
  have hcount := congrArg (fun f => (f i).count) heq
  simp only [Function.update_self] at hcount
  exact int32_ne (Or.inr rfl) hcount.symm

theorem kiSemSignal_muove (hi : maniglia hsem = some i) : kiSemSignal hsem s ≠ .ok s := by
  intro h
  obtain ⟨coda, heq⟩ := kiSemSignal_dessem hi h
  have hcount := congrArg (fun f => (f i).count) heq
  simp only [Function.update_self] at hcount
  exact int32_ne (Or.inl rfl) hcount.symm

/-! ## The semaphores that are not busy -/

namespace LiberiVuoti

theorem of_dessem (hs : LiberiVuoti s) (h : t.dessem = s.dessem) : LiberiVuoti t := by
  intro j hj
  rw [h] at hj ⊢
  exact hs j hj

/-- An assignment to a semaphore that is busy then. -/
theorem assegna (hs : LiberiVuoti s) {x : DesSem}
    (h : t.dessem = Function.update s.dessem i x) (hx : x.busy = true) : LiberiVuoti t := by
  intro j hj
  rw [h] at hj ⊢
  by_cases hji : j = i
  · subst hji
    rw [Function.update_self, hx] at hj
    cases hj
  · rw [Function.update_of_ne hji] at hj ⊢
    exact hs j hj

theorem semIni (hs : LiberiVuoti s) (valore : Int) (idx risu : Word) :
    LiberiVuoti (kiSemIni valore idx risu s) := by
  rcases kiSemIni_dessem valore idx risu s with h | ⟨i, -, h⟩
  · exact hs.of_dessem h
  · exact hs.assegna h rfl

/-- The step: only the semaphore calls matter, and they write busy semaphores. -/
theorem entrata {e : Evento} (hs : LiberiVuoti s) (h : passo s e = .ok t)
    (he : UsaEmesse ⟨.corsa, s⟩ (.entrata e)) : LiberiVuoti t := by
  rcases passo_dessem h with ⟨c, s₁, rfl, h₁, hd⟩ | hd
  · refine LiberiVuoti.of_dessem ?_ hd
    by_cases hc : c.Semaforica
    · cases c with
      | semIni valore idx risu =>
        obtain rfl := Except.ok.inj h₁
        exact hs.semIni valore idx risu
      | semWait hsem =>
        cases hi : maniglia hsem with
        | none =>
          have hsame := kiSemWait_none (s := s) hi
          obtain rfl := Except.ok.inj (hsame.symm.trans h₁)
          exact hs
        | some i =>
          obtain ⟨coda, heq⟩ := kiSemWait_dessem hi h₁
          exact hs.assegna heq (he i hi)
      | semSignal hsem =>
        cases hi : maniglia hsem with
        | none =>
          have hsame := kiSemSignal_none (s := s) hi
          obtain rfl := Except.ok.inj (hsame.symm.trans h₁)
          exact hs
        | some i =>
          obtain ⟨coda, heq⟩ := kiSemSignal_dessem hi h₁
          exact hs.assegna heq (he i hi)
      | _ => exact absurd hc id
    · exact hs.of_dessem (esegui_dessem h₁ hc)
  · exact hs.of_dessem hd

/-- The loaded image has no queues at all, so `kernel_init` may clear `busy`. -/
theorem accade {x y : Avanzamento} {f : Fatto}
    (hx : (x.momento = .inizio → ∀ i, (x.kernel.dessem i).coda = none) ∧ LiberiVuoti x.kernel)
    (hf : UsaEmesse x f) (h : Accade x f y) :
    (y.momento = .inizio → ∀ i, (y.kernel.dessem i).coda = none) ∧ LiberiVuoti y.kernel := by
  cases h with
  | tasto m s code hm =>
    have hd := loggingKbCallback_dessem code s
    refine ⟨fun hm i => ?_, hx.2.of_dessem hd⟩
    rw [hd]
    exact hx.1 hm i
  | init h =>
    refine ⟨nofun, fun i _ => ?_⟩
    rw [kernelInit_dessem h]
    exact hx.1 rfl i
  | avvia h =>
    rename_i s t v
    refine ⟨nofun, ?_⟩
    cases v with
    | attiva f k prec level idx risu stk => exact hx.2.of_dessem (kiActivatePLevel_code h).dessem
    | semIni valore idx risu =>
      obtain rfl := Except.ok.inj h
      exact hx.2.semIni valore idx risu
  | go h => exact ⟨nofun, hx.2.of_dessem (kernelGo_dessem h)⟩
  | entrata h => exact ⟨nofun, hx.2.entrata h hf⟩

end LiberiVuoti

theorem Raggiunto.liberiVuoti {fs : List Fatto} {x : Avanzamento} (h : Raggiunto UsaEmesse fs x) :
    LiberiVuoti x.kernel := by
  obtain ⟨s₀, h₀, hrun⟩ := h
  exact (hrun.invariant (I := fun x => (x.momento = .inizio →
    ∀ i, (x.kernel.dessem i).coda = none) ∧ LiberiVuoti x.kernel)
    (fun x f y hx hxy => LiberiVuoti.accade hx hxy.1 hxy.2) ⟨fun _ => h₀.coda, fun i _ => h₀.coda i⟩).2

/-- **Handles that were never issued.** In any state that is reached, a handle that was not
issued is inert exactly when it is outside the table; and as long as the calls use no others than
issued ones and those outside, no queue can be lost. -/
theorem maniglie_inerti {G : Avanzamento → Fatto → Prop} (fs : List Fatto) (x : Avanzamento)
    (h : Raggiunto G fs x) :
    (∀ hsem, NonEmessa x.kernel hsem →
      (kiSemWait hsem x.kernel = .ok x.kernel ↔ ¬ (0 ≤ hsem ∧ hsem ≤ MAXSEMS - 1)) ∧
        (kiSemSignal hsem x.kernel = .ok x.kernel ↔ ¬ (0 ≤ hsem ∧ hsem ≤ MAXSEMS - 1))) ∧
      ((∀ y f, G y f → UsaEmesse y f) → LiberiVuoti x.kernel) := by
  refine ⟨fun hsem _ => ?_, fun hG => (h.mono hG).liberiVuoti⟩
  simp only [← maniglia_none]
  cases hi : maniglia hsem with
  | none => simp [kiSemWait_none hi, kiSemSignal_none hi]
  | some i => simp [kiSemWait_muove hi, kiSemSignal_muove hi]

end

/-! ## A process that is lost -/

instance (x : Avanzamento) (f : Fatto) : Decidable (UsaEmesse x f) := by
  unfold UsaEmesse
  split <;> infer_instance

/-- Two processes; the first waits on the last semaphore, which nobody has, and the second has
it from `ki_sem_ini`. -/
def attesaNonEmessa : List Fatto :=
  [.init 0x5000 0x5004 (pila 0x100000),
    .avvia (.attiva 0x40000 0 1 3 0x5000 0x5004 (pila 0x110000)),
    .avvia (.attiva 0x41000 0 2 3 0x5000 0x5004 (pila 0x120000)), .go,
    .entrata (.chiamata (.semWait 19)), .entrata (.chiamata (.semIni 1 0x5000 0x5004))]

/-- Process 1 is live and stands nowhere. -/
def disperso (x : Avanzamento) : Bool :=
  x.kernel.Vivo 1 && x.kernel.esecuzione = some 2 && x.kernel.pronti = some 0 &&
    (x.kernel.des (some 0)).next = none && x.kernel.desTimer = none &&
    ∀ i, (x.kernel.dessem i).coda = none

/-- With handles that are issued the condition is met; a handle outside the table is inert. -/
theorem maniglie_inerti_corsa : ∃ x, Raggiunto UsaEmesse (attesaNonEmessa.take 4 ++
    [.entrata (.chiamata (.semIni 0 0x5000 0x5004)), .entrata (.chiamata (.semWait 19))]) x ∧
      LiberiVuoti x.kernel ∧ kiSemWait 20 x.kernel = .ok x.kernel := by
  obtain ⟨x, hx, -⟩ := accadi_raggiunto (G := UsaEmesse) (attesaNonEmessa.take 4 ++
    [.entrata (.chiamata (.semIni 0 0x5000 0x5004)), .entrata (.chiamata (.semWait 19))])
    (fun _ => true) (by decide +kernel)
  obtain ⟨hinerti, hvuoti⟩ := maniglie_inerti _ x hx
  exact ⟨x, hx, hvuoti fun _ _ h => h, (hinerti 20 fun i hi => by cases hi).1.mpr (by decide)⟩

/-- A wait on a handle that was not issued changes the kernel, and after the next `ki_sem_ini`
the process that waits is in no list. -/
theorem attesa_perduta : (∃ fs x, Raggiunto (fun _ _ => True) fs x ∧ NonEmessa x.kernel 19 ∧
    kiSemWait 19 x.kernel ≠ .ok x.kernel) ∧
      ∃ fs x, Raggiunto (fun _ _ => True) fs x ∧ disperso x = true := by
  have hprima : (exec (accadi fun _ _ => True) ⟨.inizio, caricato⟩ (attesaNonEmessa.take 4)).any
      (fun x => (x.kernel.dessem 19).busy = false) = true := by decide +kernel
  have hdopo : (exec (accadi fun _ _ => True) ⟨.inizio, caricato⟩ attesaNonEmessa).any
      disperso = true := by decide +kernel
  obtain ⟨x, hx, hbusy⟩ := accadi_raggiunto _ _ hprima
  have hi : maniglia 19 = some 19 := rfl
  refine ⟨⟨_, x, hx, fun i h => ?_, kiSemWait_muove hi⟩, _, accadi_raggiunto _ _ hdopo⟩
  obtain rfl : i = 19 := Option.some.inj (h.symm.trans hi)
  simpa using hbusy

end Pitos
