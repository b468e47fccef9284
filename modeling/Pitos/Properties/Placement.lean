import Pitos.Properties.Idle

/-!
# Every live process has exactly one place

`collocazione`: in every state that the kernel reaches by entries that use semaphores as they
are meant to be used, each live process is on the CPU, in `pronti`, in the queue of one
semaphore or in the timer queue, exactly once, each free descriptor is nowhere, all chains end,
and the next such entry comes back or halts the kernel. The condition on signals
(`SottoSoglia`) cannot be dropped: a signal that finds `count` at its maximum makes it
negative, looks for somebody to wake in an empty queue and leaves `esecuzione` null
(`segnale_oltre_soglia`).
-/

namespace Pitos

open Lib

/-- Each live process has one place, each free descriptor none, and a live process runs. -/
def Collocato (s : Kernel) : Prop :=
  (∃ L : s.Luoghi, ∀ p, (s.Vivo p → L.volte p = 1) ∧ (¬ s.Vivo p → L.volte p = 0)) ∧
    ∃ p, s.esecuzione = some p ∧ s.Vivo p

/-- Semaphore calls use handles returned by `ki_sem_ini`, initial values are not negative, and
no signal is raised on the idle process. -/
def Disciplina (x : Sistema) : Evento → Prop
  | .chiamata (.semIni valore _ _) => 0 ≤ valore
  | .chiamata (.semWait hsem) => x.Emesso hsem
  | .chiamata (.semSignal hsem) => x.Emesso hsem
  | .tasto code => code = 0x86 → x.kernel.esecuzione ≠ some idle
  | _ => True

/-- The same of the calls of `cmain`. -/
def DisciplinaAvvio (v : Avvio) : Prop :=
  InteriAvvio v ∧
    match v with
    | .semIni valore _ _ => 0 ≤ valore
    | .attiva .. => True

theorem Disciplina.senzaQuit {x : Sistema} {e : Evento} (h : Disciplina x e) :
    SenzaQuit x.kernel e := by
  cases e with
  | tasto code => exact fun hc he => absurd he (h hc)
  | _ => exact trivial

namespace Rappr

variable {s : Kernel} {a : Astratto}

/-- The lists of a represented state. -/
def luoghi (hR : Rappr s a) : s.Luoghi where
  pronti := a.pronti
  code := fun i => (a.sem i).coda
  timer := a.sonno.map fun r => r.1.1
  pronti_linked := hR.pronti
  code_linked := hR.coda
  timer_linked := hR.timer

theorem volte_luoghi (hR : Rappr s a) (p : Pid) : hR.luoghi.volte p = a.presenze p := by
  have htimer : (a.sonno.map fun r => r.1.1).countP (fun z => (s.ric z).proc = some p) =
      (a.sonno.map fun r => r.1.2).count p := by
    rw [List.count, List.countP_map, List.countP_map]
    apply List.countP_congr
    intro r hr
    simp [hR.proc r hr]
  unfold Kernel.Luoghi.volte Astratto.presenze Astratto.inCoda
  rw [hR.esecuzione]
  simp only [luoghi, htimer]
  omega

theorem collocato (hR : Rappr s a) (hA : Regolare a) (hC : Mossa.Completo a) : Collocato s := by
  refine ⟨⟨hR.luoghi, fun p => ⟨fun hv => ?_, fun hv => ?_⟩⟩, ?_⟩
  · rw [hR.volte_luoghi]
    have h1 := hC p (hR.vivo_iff.mp hv)
    have h2 := hA.inv.unico p
    omega
  · rw [hR.volte_luoghi]
    by_contra h0
    exact hv (hR.vivo_iff.mpr (hA.inv.vivo p (by omega)))
  · obtain ⟨p, he⟩ := Option.ne_none_iff_exists'.mp hA.attivo
    exact ⟨p, hR.esecuzione.trans he, hR.vivo_iff.mpr (hA.inv.esecuzione_vivi he)⟩

end Rappr

/-! ## What the discipline adds -/

/-- No live process is lost, and nobody waits at a semaphore that was not initialized. -/
structure Ordinata (a : Astratto) (h : Storia) : Prop where
  completo : Mossa.Completo a
  vuote : ∀ i, h i = none → (a.sem i).coda = []

namespace Ordinata

variable {a b : Astratto} {t : Atto} {ts : List Atto} {h h' : Storia} {i : Fin MAXSEMS}

theorem iniziale (hi : Iniziale a) : Ordinata a fun _ => none := by
  refine ⟨fun p hp => ?_, fun i _ => hi.coda i⟩
  rw [hi.vivi, Finset.mem_singleton] at hp
  subst hp
  have := Astratto.presenze_pos_of_pronti (a := a) (p := idle) (by simp [hi.pronti])
  unfold Astratto.presenze
  omega

/-- A move that is about no semaphore. -/
theorem mossa (hO : Ordinata a h) (hI : Inv a) (hm : Mossa a t b) (ht : ∀ i, ¬ t.riguarda i) :
    Ordinata b h := by
  refine ⟨hm.completo hI hO.completo fun i v e => absurd ?_ (ht i), fun i hi => ?_⟩
  · rw [e]
    rfl
  · rw [hm.sem_eq (ht i)]
    exact hO.vuote i hi

theorem run (hO : Ordinata a h) (hI : Inv a) (hr : Run Mossa a ts b)
    (ht : ∀ t ∈ ts, ∀ i, ¬ t.riguarda i) : Ordinata b h := by
  induction hr with
  | nil => exact hO
  | cons hm _ ih =>
    exact ih (hO.mossa hI hm (ht _ List.mem_cons_self)) (hm.inv hI) fun t h =>
      ht t (List.mem_cons_of_mem _ h)

/-- A wait or a signal on an initialized semaphore. -/
theorem operazione (hO : Ordinata a h) (hI : Inv a) (hm : Mossa a t b)
    (ht : ∀ j, j ≠ i → ¬ t.riguarda j) (hini : ∀ v, t ≠ .semIni i v) (hi : (h' i).isSome = true)
    (hh : ∀ j, j ≠ i → h' j = h j) : Ordinata b h' := by
  refine ⟨hm.completo hI hO.completo fun j v e => ?_, fun j hj => ?_⟩
  · by_cases hji : j = i
    · exact absurd (hji ▸ e) (hini v)
    · exact absurd (by rw [e]; rfl) (ht j hji)
  · by_cases hji : j = i
    · subst hji
      rw [hj] at hi
      cases hi
    · rw [hm.sem_eq (ht j hji)]
      exact hO.vuote j (by rw [← hh j hji]; exact hj)

/-- The initialization of a semaphore finds its queue empty. -/
theorem ini (hO : Ordinata a h) (hI : Inv a) (hS : ∀ i m, h i = some m → Specchio a i m)
    {s : Kernel} {valore : Int} (hc : s.cercaSem = some i) (hm : Mossa a (.semIni i valore) b) :
    Ordinata b (annotaIni s valore h) := by
  have hcoda : (a.sem i).coda = [] := by
    cases hm with
    | semIni _ _ hbusy =>
      cases hi : h i with
      | none => exact hO.vuote i hi
      | some m =>
        rw [(hS i m hi).busy] at hbusy
        cases hbusy
  refine ⟨hm.completo hI hO.completo fun j v e => ?_, fun j hj => ?_⟩
  · obtain ⟨rfl, -⟩ := Atto.semIni.inj e
    exact hcoda
  · by_cases hji : j = i
    · subst hji
      cases hm
      simp [Astratto.setSem]
    · rw [hm.sem_eq fun e => hji e.symm]
      simp only [annotaIni, hc, Function.update_of_ne hji] at hj
      exact hO.vuote j hj

theorem avvio (hO : Ordinata a h) (hI : Inv a) (hS : ∀ i m, h i = some m → Specchio a i m)
    {s : Kernel} {v : Avvio} (hts : TracciaAvvio s v ts) (hr : Run Mossa a ts b) :
    Ordinata b (annotaAvvio s v h) := by
  cases v with
  | attiva f k prec level idx risu stk =>
    apply hO.run hI hr
    intro t ht i
    rcases hts with rfl | ⟨q, rfl⟩
    · exact absurd ht List.not_mem_nil
    · rw [List.mem_singleton.mp ht]
      exact id
  | semIni valore idx risu =>
    cases hc : s.cercaSem with
    | none =>
      simp only [TracciaAvvio, hc] at hts
      subst hts
      cases hr
      simpa only [annotaAvvio, annotaIni, hc] using hO
    | some i =>
      simp only [TracciaAvvio, hc] at hts
      subst hts
      cases hr with
      | cons hm hnil =>
        cases hnil
        exact hO.ini hI hS hc hm

/-- A system call. -/
theorem chiamata {s : Kernel} {p : Pid} (hO : Ordinata a h) (hI : Inv a)
    (hesec : s.esecuzione = some p) (hS : ∀ i m, h i = some m → Specchio a i m) {c : Chiamata}
    (hd : Disciplina ⟨s, h⟩ (.chiamata c)) (ht : Compie s p c t) (hm : Mossa a t b) :
    Ordinata b (annota s (.chiamata c) h) := by
  cases c with
  | semIni valore idx risu =>
    cases hc : s.cercaSem with
    | none =>
      simp only [Compie, hc] at ht
      subst ht
      simpa only [annota, annotaIni, hc] using hO.mossa hI hm fun i => id
    | some i =>
      simp only [Compie, hc] at ht
      subst ht
      exact hO.ini hI hS hc hm
  | semWait hsem =>
    obtain ⟨i, hi, hemesso⟩ := hd
    obtain ⟨m, hm₀⟩ := Option.isSome_iff_exists.mp hemesso
    have hm₁ : h i = some m := hm₀
    simp only [Compie, hi] at ht
    simp only [annota, hi, hesec]
    refine hO.operazione (i := i) hI hm ?_ ?_ (by rw [Function.update_self, hm₁]; rfl)
      fun j hj => Function.update_of_ne hj _ _
    · rcases ht with rfl | rfl <;> exact fun j hj e => hj e.symm
    · rcases ht with rfl | rfl <;> exact fun v e => by cases e
  | semSignal hsem =>
    obtain ⟨i, hi, hemesso⟩ := hd
    obtain ⟨m, hm₀⟩ := Option.isSome_iff_exists.mp hemesso
    have hm₁ : h i = some m := hm₀
    simp only [Compie, hi] at ht
    simp only [annota, hi, hesec]
    refine hO.operazione (i := i) hI hm ?_ ?_ (by rw [Function.update_self, hm₁]; rfl)
      fun j hj => Function.update_of_ne hj _ _
    · rcases ht with rfl | ⟨q, rfl | rfl⟩ <;> exact fun j hj e => hj e.symm
    · rcases ht with rfl | ⟨q, rfl | rfl⟩ <;> exact fun v e => by cases e
  | activateP f k prec idx risu stk =>
    apply hO.mossa hI hm
    intro i
    rcases ht with rfl | ⟨q, rfl⟩ <;> exact id
  | terminateP =>
    apply hO.mossa hI hm
    intro i
    rw [show t = .termina p from ht]
    exact id
  | delay n z =>
    apply hO.mossa hI hm
    intro i
    rw [show t = .dorme (n.tdiv 50) (z, p) from ht]
    exact id
  | _ =>
    apply hO.mossa hI hm
    intro i
    rw [show t = .dati from ht]
    exact id

theorem evento {x : Sistema} {e : Evento} {p : Pid} (hO : Ordinata a x.storia) (hx : Segue x a)
    (he : a.esecuzione = some p) (hd : Disciplina x e) (hts : Traccia x.kernel p e ts)
    (hr : Run Mossa a ts b) : Ordinata b (annota x.kernel e x.storia) := by
  have hI := hx.regolare.inv
  cases e with
  | chiamata c =>
    obtain ⟨t, sig, ht, hsig, rfl⟩ := hts
    cases hr with
    | cons hm hr =>
      exact (hO.chiamata hI (hx.rappr.esecuzione.trans he) hx.specchio hd ht hm).run (hm.inv hI) hr
        fun t ht i => hsig.riguarda t ht
  | chiamataErrata =>
    rw [show ts = [] from hts] at hr
    cases hr
    exact hO
  | tick => exact hO.run hI hr fun t ht i => hts.riguarda t ht
  | tasto code =>
    exact hO.run hI hr fun t ht i => tasto_riguarda hts t ht
  | eccezione =>
    apply hO.run hI hr
    intro t ht i
    rw [show ts = [.termina p] from hts, List.mem_singleton] at ht
    subst ht
    exact id
  | ritorno => exact absurd hts id

end Ordinata

/-- Where the history of a semaphore is kept, its queue is not empty when `count` says so. -/
theorem Specchio.non_vuoto {a : Astratto} {i : Fin MAXSEMS} {m : PrioSem Pid}
    (hS : Specchio a i m) (hI : Inv a) (hmax : (a.sem i).count ≠ INT_MAX)
    (hc : int32 ((a.sem i).count + 1) ≤ 0) : (a.sem i).coda ≠ [] := by
  intro hnil
  have hle := hS.massimo
  have hcount := hS.count
  rw [hS.int32_count hI (by omega) (by omega)] at hc
  have hperm := hS.serve.perm.length_eq
  rw [hnil] at hperm
  rw [← hperm] at hcount
  simp only [List.length_nil] at hcount
  omega

theorem collocazione (es : List Evento) (x : Sistema)
    (h : Sistema.Raggiunge DisciplinaAvvio (fun x e => Disciplina x e ∧ SottoSoglia x e) es x) :
    Collocato x.kernel ∧ ∀ e, Possibile x.kernel e → Disciplina x e → SottoSoglia x e →
      (∃ s, passo x.kernel e = .ok s) ∨ ∃ s, passo x.kernel e = .error (.halt s) := by
  obtain ⟨a, ⟨hR, hA, hS⟩, hO⟩ := (h.idle_vivo fun x e hg => hg.1.senzaQuit).segue (J := Ordinata)
    (fun v hv => hv.1) (fun x e hg => hg.2) (fun x e hg => hg.1.2) (fun a hi => .iniziale hi)
    (fun s v ts a b h _ _ hI hts hr hS hO => hO.avvio hI hS hts hr)
    (fun a b h hm hI hO => hO.mossa hI hm fun i => id)
    (fun x e p ts a b hx he hg hts hr hO => hO.evento hx he hg.1.1 hts hr)
  refine ⟨hR.collocato hA hO.completo, fun e hposs hd hmax => ?_⟩
  obtain ⟨p, he⟩ := Option.ne_none_iff_exists'.mp hA.attivo
  rcases hR.passo_mosse hA he hposs with ⟨s, -, -, heq, -⟩ | hf
  · exact Or.inl ⟨s, heq⟩
  generalize passo x.kernel e = r at hf ⊢
  cases hf with
  | ritorno s _ => exact Or.inr ⟨s, rfl⟩
  | halt s _ _ => exact Or.inr ⟨s, rfl⟩
  | perso s _ _ _ _ _ => exact Or.inl ⟨s, rfl⟩
  | perduto c s hv =>
    cases c with
    | semSignal hsem =>
      obtain ⟨i, hi, hc, hnil⟩ := hv
      obtain ⟨j, hj, hemesso⟩ := hd
      obtain rfl := Option.some.inj (hj.symm.trans hi)
      obtain ⟨m, hm⟩ := Option.isSome_iff_exists.mp hemesso
      have hne := hmax j hi hemesso
      rw [hR.count] at hne
      exact absurd hnil ((hS j m hm).non_vuoto hA.inv hne hc)
    | _ => exact absurd hv id

instance (x : Sistema) (e : Evento) : Decidable (Disciplina x e) :=
  match e with
  | .chiamata (.semIni valore _ _) => inferInstanceAs (Decidable (0 ≤ valore))
  | .chiamata (.semWait hsem) | .chiamata (.semSignal hsem) =>
    inferInstanceAs (Decidable (x.Emesso hsem))
  | .tasto code => inferInstanceAs (Decidable (code = 0x86 → x.kernel.esecuzione ≠ some idle))
  | .chiamata (.activateP ..) | .chiamata .terminateP | .chiamata (.sysGetOsName ..)
  | .chiamata (.getTick ..) | .chiamata (.delay ..) | .chiamata (.getPri _)
  | .chiamata (.getBasepri _) | .chiamata (.getPid _) | .chiamata (.signal ..)
  | .chiamata (.raise _) | .chiamata .signalrespin | .chiamata (.print ..) | .chiamata (.free _)
  | .chiamata (.malloc ..) | .chiamataErrata | .tick | .eccezione | .ritorno => isTrue trivial

instance (v : Avvio) : Decidable (DisciplinaAvvio v) :=
  match v with
  | .attiva .. => inferInstanceAs (Decidable (InteriAvvio _ ∧ True))
  | .semIni valore .. => inferInstanceAs (Decidable (InteriAvvio _ ∧ 0 ≤ valore))

/-- Two processes meet at a semaphore. -/
theorem collocazione_corsa :
    ∃ x, Sistema.Raggiunge DisciplinaAvvio (fun x e => Disciplina x e ∧ SottoSoglia x e)
        [.chiamata (.semIni 0 0x6000 0x6004), .chiamata (.semWait 19), .tick,
          .chiamata (.delay 100 1)] x ∧ Collocato x.kernel := by
  obtain ⟨x, hx, -⟩ := Sistema.prova_raggiunge (B := DisciplinaAvvio)
    (G := fun x e => Disciplina x e ∧ SottoSoglia x e)
    [.attiva 0x7000 0 10 3 0x5010 0x5014 (pila 0x20000),
      .attiva 0x7100 0 12 3 0x5018 0x501c (pila 0x22000)]
    [.chiamata (.semIni 0 0x6000 0x6004), .chiamata (.semWait 19), .tick,
      .chiamata (.delay 100 1)]
    (fun x => true) (by decide +kernel)
  exact ⟨x, hx, (collocazione _ x hx).1⟩

/-- The state in which the kernel is left without a current process. -/
def Kernel.perduto (s : Kernel) (e : Evento) : Option Kernel :=
  match passo s e with
  | .error (.perduto t) => some t
  | _ => none

/-- A signal on a semaphore that was initialized with the greatest `int`. -/
theorem segnale_oltre_soglia :
    ∃ x e t, Sistema.Raggiunge DisciplinaAvvio Disciplina
        [.chiamata (.semIni INT_MAX 0x6000 0x6004)] x ∧ Possibile x.kernel e ∧ Disciplina x e ∧
      passo x.kernel e = .error (.perduto t) ∧ t.esecuzione = none := by
  obtain ⟨x, hx, hP⟩ := Sistema.prova_raggiunge (B := DisciplinaAvvio) (G := Disciplina)
    [.attiva 0x7000 0 10 3 0x5010 0x5014 (pila 0x20000)]
    [.chiamata (.semIni INT_MAX 0x6000 0x6004)]
    (fun x => (Possibile x.kernel (.chiamata (.semSignal 19)) ∧
      Disciplina x (.chiamata (.semSignal 19))) ∧
        (x.kernel.perduto (.chiamata (.semSignal 19))).any fun t => t.esecuzione = none)
    (by decide +kernel)
  simp only [decide_eq_true_eq, Option.any_eq_true] at hP
  obtain ⟨⟨hposs, hd⟩, t, ht, he⟩ := hP
  refine ⟨x, _, t, hx, hposs, hd, ?_, he⟩
  unfold Kernel.perduto at ht
  split at ht
  · rename_i heq
    rw [Option.some.inj ht] at heq
    exact heq
  · cases ht

end Pitos
