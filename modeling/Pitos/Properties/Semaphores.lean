import Pitos.Properties.Placement

/-!
# Semaphores refine counting semaphores

`semafori`: in every state that is reached while the idle process lives, a semaphore returned
by `ki_sem_ini` behaves as the counting semaphore of its history. What `count` and `coda` say
is read off the kernel state (`Conteggio`); what the next signal does is said of
`ki_sem_signal` itself (`Servizio`).
-/

namespace Pitos

open Lib

/-- What `count` and `coda` say of the history `m` of semaphore `i`. -/
structure Conteggio (s : Kernel) (i : Fin MAXSEMS) (m : PrioSem Pid) (L : s.Luoghi) : Prop where
  vuota : 0 ≤ (s.dessem i).count → L.code i = []
  lunghezza : (s.dessem i).count < 0 → ((L.code i).length : Int) = -(s.dessem i).count
  distinti : (L.code i).Nodup
  /-- Who waits is live and stands nowhere else: not on the CPU, not in `pronti`. -/
  fermi : ∀ q ∈ L.code i, s.Vivo q ∧ L.volte q = 1
  ordinata : Sorted s.prec (L.code i)
  /-- Among equals the order is that of the waits. -/
  arrivo : ∀ k, (L.code i).filter (fun q => s.prec q = k) =
    m.waiting.filter (fun q => s.prec q = k)
  /-- The waits that have been passed are those made by processes that no longer stand in
  `coda`; there are at most as many as signals and initial permits. -/
  passati : (m.waits : Int) - (L.code i).length - m.signals ≤ m.initial
  /-- As long as only a process inside makes signals. -/
  dentro : m.bracketed = true → m.inside.length ≤ m.initial

/-- What `ki_sem_signal` does when somebody waits: the waiter with the smallest `prec` that has
waited longest leaves `coda`, alone, and runs or is ready as its priority says. -/
def Servizio (s : Kernel) (i : Fin MAXSEMS) (m : PrioSem Pid) : Prop :=
  ∀ hsem p, maniglia hsem = some i → s.esecuzione = some p → p ≠ idle → (s.dessem i).count < 0 →
    ∃ q l s', m.next s.prec = some q ∧ Linked (successore s.des) (s.dessem i).coda (q :: l) ∧
      kiSemSignal hsem s = .ok s' ∧ Linked (successore s'.des) (s'.dessem i).coda l ∧
      (s.prec q ≤ s.prec p → s'.esecuzione = some q ∧ s'.InPronti p) ∧
      (s.prec p < s.prec q → s'.esecuzione = some p ∧ s'.InPronti q)

namespace Segue

variable {x : Sistema} {a : Astratto} {i : Fin MAXSEMS} {m : PrioSem Pid}

theorem prec_eq (h : Segue x a) : x.kernel.prec = a.prec := funext h.rappr.prec

/-- The length of the queue. -/
theorem lunghezza (h : Segue x a) (hm : x.storia i = some m) :
    (0 ≤ (x.kernel.dessem i).count → (a.sem i).coda = []) ∧
      ((x.kernel.dessem i).count < 0 →
        ((a.sem i).coda.length : Int) = -(x.kernel.dessem i).count) := by
  have hS := h.specchio i m hm
  have hcount := hS.count
  have hlen := hS.serve.perm.length_eq
  rw [h.rappr.count, hcount]
  rcases hS.waiting_nil_or with hw | h0
  · rw [hw] at hlen ⊢
    refine ⟨fun _ => List.eq_nil_of_length_eq_zero hlen, fun hneg => ?_⟩
    simp only [List.length_nil] at hneg
    omega
  · rw [h0, ← hlen]
    refine ⟨fun hge => List.eq_nil_of_length_eq_zero (by omega), fun _ => by omega⟩

theorem conteggio (h : Segue x a) (hm : x.storia i = some m) :
    Conteggio x.kernel i m h.rappr.luoghi := by
  have hS := h.specchio i m hm
  have hI := h.regolare.inv
  have hlen := hS.serve.perm.length_eq
  have hcalls := hS.sound.calls
  have hpassed := hS.sound.passed_le
  obtain ⟨hvuota, hneg⟩ := h.lunghezza hm
  refine ⟨hvuota, hneg, ?_, fun q hq => ⟨?_, ?_⟩, ?_, ?_, ?_, hS.sound.inside_le⟩
  · apply List.nodup_iff_count_le_one.mpr
    intro q
    by_contra hgt
    have h2 := hI.inCoda_le q
    have h1 : (a.sem i).coda.count q ≤ ∑ j, (a.sem j).coda.count q :=
      Finset.single_le_sum (f := fun j => (a.sem j).coda.count q) (fun _ _ => Nat.zero_le _)
        (Finset.mem_univ i)
    have h3 : ¬ (a.sem i).coda.count q ≤ 1 := hgt
    unfold Astratto.inCoda at h2
    omega
  · exact h.rappr.vivo_iff.mpr (hI.coda_vivi q hq)
  · rw [h.rappr.volte_luoghi]
    have h1 : 1 ≤ a.inCoda q := Astratto.presenze_pos_of_coda hq
    have h2 := hI.unico q
    unfold Astratto.presenze at h2 ⊢
    omega
  · rw [h.prec_eq]
    exact hS.serve.sorted
  · rw [h.prec_eq]
    exact hS.serve.classes
  · show (m.waits : Int) - ((a.sem i).coda.length : Int) - m.signals ≤ m.initial
    omega

theorem servizio (h : Segue x a) (hm : x.storia i = some m) : Servizio x.kernel i m := by
  intro hsem p hi hesec hp hneg
  have hS := h.specchio i m hm
  have hR := h.rappr
  have hI := h.regolare.inv
  have he : a.esecuzione = some p := hR.esecuzione.symm.trans hesec
  have hlen := (h.lunghezza hm).2 hneg
  rw [hR.count] at hneg hlen
  obtain ⟨q, l, hq⟩ := List.exists_cons_of_ne_nil (l := (a.sem i).coda) fun e => by
    rw [e] at hlen
    simp only [List.length_nil] at hlen
    omega
  have hcount : int32 ((a.sem i).count + 1) ≤ 0 := by
    have hmax : (0 : Int) ≤ INT_MAX := by decide
    rw [hS.int32_count hI (by omega) (by omega)]
    omega
  have hlinked := hR.coda i
  have hserve := hS.serve
  rw [hq] at hlinked hserve
  obtain ⟨s', t, b, heq, ht, hmossa, hR'⟩ :=
      hR.kiSemSignal_eq hI he hp hsem fun ⟨j, hj, _, hnil⟩ => by
    obtain rfl := Option.some.inj (hi.symm.trans hj)
    rw [hq] at hnil
    cases hnil
  simp only [Compie, hi] at ht
  refine ⟨q, l, s', ?_, hlinked, heq, ?_⟩
  · rw [h.prec_eq]
    exact hserve.next_eq
  rw [h.prec_eq, hR'.esecuzione, hR'.inPronti_iff, hR'.inPronti_iff]
  have hcoda := hR'.coda i
  rcases ht with rfl | ⟨r, rfl | rfl⟩
  · cases hmossa with
    | libera _ hc =>
      rcases hc with hc | hc
      · omega
      · rw [hq] at hc
        cases hc
  · cases hmossa with
    | sveglia _ p' _ l' he' hc hq' hprec =>
      obtain rfl := Option.some.inj (he.symm.trans he')
      obtain ⟨rfl, rfl⟩ := List.cons.inj (hq.symm.trans hq')
      refine ⟨?_, fun hle => absurd hprec (not_lt.mpr hle), fun _ => ⟨he, ?_⟩⟩
      · simpa [Astratto.accoda, Astratto.setCoda, Astratto.setCount, Astratto.setSem] using hcoda
      · exact mem_insertByKey.mpr (Or.inl rfl)
  · cases hmossa with
    | cede _ _ _ l' he' hc hq' hprec =>
      obtain ⟨rfl, rfl⟩ := List.cons.inj (hq.symm.trans hq')
      refine ⟨?_, fun _ => ⟨rfl, ?_⟩, fun hlt => absurd hprec (not_le.mpr hlt)⟩
      · simpa [Astratto.accoda, Astratto.setCoda, Astratto.setCount, Astratto.setSem,
          Astratto.setEsecuzione, Astratto.aggiorna] using hcoda
      · exact mem_insertByKey.mpr (Or.inl rfl)

end Segue

/-- The entries that leave the idle process alive and find `count` below its maximum. -/
theorem semafori (es : List Evento) (x : Sistema)
    (h : Sistema.Raggiunge InteriAvvio (fun x e => IdleVivo x.kernel e ∧ SottoSoglia x e) es x)
    (i : Fin MAXSEMS) (m : PrioSem Pid) (hm : x.storia i = some m) :
    (∃ L, Conteggio x.kernel i m L) ∧ Servizio x.kernel i m := by
  obtain ⟨a, ha, -⟩ := h.segue (J := fun _ _ => True) (fun _ h => h) (fun _ _ h => h.1)
    (fun _ _ h => h.2) (fun _ _ => trivial) (fun _ _ _ _ _ _ _ _ _ _ _ _ _ => trivial)
    (fun _ _ _ _ _ _ => trivial) (fun _ _ _ _ _ _ _ _ _ _ _ _ => trivial)
  exact ⟨⟨_, ha.conteggio hm⟩, ha.servizio hm⟩

/-- Two processes meet at a semaphore with one permit. -/
theorem semafori_corsa :
    ∃ x m, Sistema.Raggiunge InteriAvvio (fun x e => IdleVivo x.kernel e ∧ SottoSoglia x e)
        [.chiamata (.semIni 1 0x6000 0x6004), .chiamata (.semWait 19), .chiamata (.delay 100 1),
          .chiamata (.semWait 19)] x ∧ x.storia 19 = some m ∧
      (∃ L, Conteggio x.kernel 19 m L) ∧ Servizio x.kernel 19 m := by
  obtain ⟨x, hx, hP⟩ := Sistema.prova_raggiunge (B := InteriAvvio)
    (G := fun x e => IdleVivo x.kernel e ∧ SottoSoglia x e)
    [.attiva 0x7000 0 10 3 0x5010 0x5014 (pila 0x20000),
      .attiva 0x7100 0 12 3 0x5018 0x501c (pila 0x22000)]
    [.chiamata (.semIni 1 0x6000 0x6004), .chiamata (.semWait 19), .chiamata (.delay 100 1),
      .chiamata (.semWait 19)]
    (fun x => (x.storia 19).isSome) (by decide +kernel)
  obtain ⟨m, hm⟩ := Option.isSome_iff_exists.mp hP
  exact ⟨x, m, hx, hm, semafori _ x hx 19 m hm⟩

end Pitos
