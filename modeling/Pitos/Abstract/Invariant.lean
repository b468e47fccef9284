import Pitos.Abstract.Operations

/-!
# Every process has at most one place

`Inv` says that no process is found in two places, that only live processes are found, that
the idle process has the CPU or is ready, that `procCount` counts the live processes and that
the timer queue and the heap agree. Every move preserves it (`Mossa.inv`). What a move does to
the number of places of a process is `Mossa.bilancio`: only an activation, a termination and
the reinitialization of a semaphore change it.
-/

namespace Pitos

open Lib Astratto

/-- Nobody is in two places. -/
def Unico (a : Astratto) : Prop := ∀ p, a.presenze p ≤ 1

structure Inv (a : Astratto) : Prop where
  unico : Unico a
  vivo : ∀ p, 1 ≤ a.presenze p → p ∈ a.vivi
  idle : a.esecuzione = some idle ∨ idle ∈ a.pronti
  conta : a.procCount = a.vivi.card
  indirizzi : (a.sonno.map fun r => r.1.1).Nodup
  heap : a.vive.Perm (a.sonno.map fun r => r.1.1)

/-- How many places of `q` a move adds. -/
def entra : Atto → Pid → Nat
  | .attiva p _, q => if p = q then 1 else 0
  | _, _ => 0

/-- How many places of `q` a move takes away. -/
def esce (a : Astratto) : Atto → Pid → Nat
  | .termina p, q => if p = q then 1 else 0
  | .semIni i _, q => (a.sem i).coda.count q
  | _, _ => 0

namespace Unico

variable {a : Astratto} {p : Pid}

theorem separati (h : Unico a) : Separati a := by
  intro q
  have := h q
  unfold presenze at this
  omega

/-- The running process stands in no list. -/
theorem inCoda_esecuzione (h : Unico a) (he : a.esecuzione = some p) : a.inCoda p = 0 := by
  have := h p
  simp only [presenze, he, count_some_toList, if_true] at this
  omega

theorem pronti_nodup (h : Unico a) : a.pronti.Nodup := by
  apply List.nodup_iff_count_le_one.mpr
  intro q
  have := h.separati q
  unfold inCoda at this
  omega

/-- Making the running process ready again. -/
theorem accoda_nodup (h : Unico a) (he : a.esecuzione = some p) {key : Pid → Int} :
    (insertByKey key p a.pronti).Nodup := by
  refine (insertByKey_perm key p a.pronti).nodup_iff.mpr (List.nodup_cons.mpr ⟨fun hp => ?_, ?_⟩)
  · have := presenze_pos_of_pronti hp
    have := h.inCoda_esecuzione he
    omega
  · exact h.pronti_nodup

end Unico

namespace Inv

variable {a : Astratto} {p q : Pid} {i j : Fin MAXSEMS}

theorem inCoda_le (h : Inv a) (q : Pid) : a.inCoda q ≤ 1 := h.unico.separati q

theorem inCoda_esecuzione (h : Inv a) (he : a.esecuzione = some p) : a.inCoda p = 0 :=
  h.unico.inCoda_esecuzione he

theorem pronti_vivi (h : Inv a) : ∀ p ∈ a.pronti, p ∈ a.vivi := fun p hp =>
  h.vivo p (by
    have := presenze_pos_of_pronti hp
    unfold presenze
    omega)

theorem sonno_vivi (h : Inv a) : ∀ r ∈ a.sonno, r.1.2 ∈ a.vivi := fun r hr =>
  h.vivo r.1.2 (by
    have := presenze_pos_of_sonno hr
    unfold presenze
    omega)

theorem esecuzione_vivi (h : Inv a) (he : a.esecuzione = some p) : p ∈ a.vivi :=
  h.vivo p (by simp [presenze, he])

theorem coda_vivi (h : Inv a) : ∀ p ∈ (a.sem i).coda, p ∈ a.vivi := fun p hp =>
  h.vivo p (by
    have := presenze_pos_of_coda hp
    unfold presenze
    omega)

/-- While another process runs the idle process is ready. -/
theorem idle_pronti (h : Inv a) (he : a.esecuzione = some p) (hp : p ≠ Pitos.idle) :
    Pitos.idle ∈ a.pronti := by
  rcases h.idle with h | h
  · rw [he] at h
    exact absurd (Option.some.inj h) hp
  · exact h

theorem pronti_ne_nil (h : Inv a) (he : a.esecuzione = some p) (hp : p ≠ Pitos.idle) :
    a.pronti ≠ [] := List.ne_nil_of_mem (h.idle_pronti he hp)

/-- A process that leaves the CPU without being made ready is not the next to run. -/
theorem schedulatore_ne {c : Astratto} (h : Inv a) (he : a.esecuzione = some p)
    (hp : p ≠ Pitos.idle) (hc : c.pronti = a.pronti) : c.schedulatore.esecuzione ≠ some p := by
  obtain ⟨q, l, hq⟩ := List.exists_cons_of_ne_nil (h.pronti_ne_nil he hp)
  rw [esecuzione_schedulatore (hc.trans hq)]
  intro e
  have hmem : p ∈ a.pronti := by
    rw [hq, Option.some.inj e]
    exact List.mem_cons_self
  have := presenze_pos_of_pronti hmem
  have := h.inCoda_esecuzione he
  omega

theorem accoda_nodup (h : Inv a) (he : a.esecuzione = some p) {key : Pid → Int} :
    (insertByKey key p a.pronti).Nodup := h.unico.accoda_nodup he

/-- The running process, put back among the ready ones, is a live process like them. -/
theorem accoda_vivi (h : Inv a) (he : a.esecuzione = some p) {key : Pid → Int} :
    ∀ q ∈ insertByKey key p a.pronti, q ∈ a.vivi := by
  intro q hq
  rcases mem_insertByKey.mp hq with rfl | hq
  · exact h.esecuzione_vivi he
  · exact h.pronti_vivi q hq

theorem idle_vivo (h : Inv a) : Pitos.idle ∈ a.vivi := by
  rcases h.idle with h' | h'
  · exact h.esecuzione_vivi h'
  · exact h.pronti_vivi _ h'

/-- While the idle process runs, those that are ready are others. -/
theorem altri_pronti (h : Inv a) (he : a.esecuzione = some Pitos.idle) (hq : q ∈ a.pronti) :
    q ≠ Pitos.idle ∧ q ∈ a.vivi := by
  refine ⟨?_, h.pronti_vivi q hq⟩
  intro e
  subst e
  have := presenze_pos_of_pronti hq
  have := h.inCoda_esecuzione he
  omega

/-- A free descriptor has no place. -/
theorem presenze_of_free (h : Inv a) (hf : (a.dati p).stato = .FREE) : a.presenze p = 0 := by
  by_contra hne
  exact mem_vivi.mp (h.vivo p (by omega)) hf

theorem separati (h : Inv a) : Separati a := h.inCoda_le

theorem inCoda_of_free (h : Inv a) (hf : (a.dati p).stato = .FREE) : a.inCoda p = 0 := by
  have := h.presenze_of_free hf
  unfold presenze at this
  omega

end Inv

/-- The live processes after a move. -/
def Atto.vivi : Atto → Finset Pid → Finset Pid
  | .attiva p _, v => insert p v
  | .termina p, v => v.erase p
  | _, v => v

namespace Mossa

variable {a b : Astratto} {t : Atto}

/-- The new process of an activation. -/
theorem attiva_inv {p : Pid} {k : Int} (h : Mossa a (.attiva p k) b) :
    ∃ d : DesProc, (a.dati p).stato = .FREE ∧ d.prec = k ∧ d.stato = .PRONTO ∧ d.tick = 0 ∧
      d.sigMask = 0 ∧ d.sigHandlers = (fun _ => SIG_DFL) ∧
      b = ((a.aggiorna p fun _ => d).setProcCount (int32 (a.procCount + 1))).accoda p := by
  generalize ht : Atto.attiva p k = t at h
  cases h with
  | attiva q d he hfree hstato htick htotal hbase hmask hgestori =>
    obtain ⟨rfl, rfl⟩ := Atto.attiva.inj ht
    exact ⟨d, hfree, rfl, hstato, htick, hmask, hgestori, rfl⟩
  | _ => cases ht

/-! ## The balance of a move -/

/-- The end of a tick takes nobody away. -/
theorem turno_presenze (h : Mossa a t b) (ht : Turno t) (hU : Unico a) (q : Pid) :
    b.presenze q = a.presenze q := by
  cases h with
  | prosegue p he hr ht => rfl
  | prelazione p he hr ht =>
    rw [presenze_schedulatore pronti_accoda_ne_nil]
    simp only [presenze, he, inCoda_accoda, inCoda_setRescheduler, count_some_toList]
    omega
  | rischedula p he hr =>
    rw [presenze_schedulatore (pronti_reschedule_ne_nil pronti_accoda_ne_nil), inCoda_reschedule]
    · simp only [presenze, he, inCoda_accoda, inCoda_setRescheduler, inCoda_aggiorna,
        count_some_toList]
      omega
    · exact hU.accoda_nodup he
  | _ => rcases ht with ht | ht | ht <;> cases ht

theorem stato_schedulatore {c : Astratto} {q : Pid} (hq : q ∉ c.pronti) :
    (c.schedulatore.dati q).stato = (c.dati q).stato := by
  unfold Astratto.schedulatore
  split
  · rfl
  · rename_i p l hp
    have hne : q ≠ p := fun e => hq (by rw [hp, e]; exact List.mem_cons_self)
    refine Eq.trans ?_ (stato_saldo (a := c))
    show ((c.saldo.aggiorna p DesProc.avviato).dati q).stato = _
    rw [dati_aggiorna, Function.update_of_ne hne]

/-- The end of a tick is about the ready processes and the running one. -/
theorem turno_stato (h : Mossa a t b) (ht : Turno t) (hU : Unico a) {q : Pid}
    (hq : a.presenze q = 0) : (b.dati q).stato = (a.dati q).stato := by
  have hpronti : q ∉ a.pronti := fun hmem => by
    have := presenze_pos_of_pronti hmem
    unfold presenze at hq
    omega
  have hne : ∀ p, a.esecuzione = some p → q ≠ p := by
    rintro p he rfl
    simp [presenze, he] at hq
  have hacc : ∀ p, a.esecuzione = some p → ∀ key : Pid → Int, q ∉ insertByKey key p a.pronti := by
    intro p he key hmem
    rcases mem_insertByKey.mp hmem with hmem | hmem
    · exact hne p he hmem
    · exact hpronti hmem
  cases h with
  | prosegue p he hr ht => rfl
  | prelazione p he hr ht => exact stato_schedulatore (hacc p he _)
  | rischedula p he hr =>
    have hno : q ∉ (((a.setRescheduler 0).aggiorna p DesProc.addebitato).accoda p).pronti :=
      hacc p he _
    refine (stato_schedulatore fun hmem => hno ?_).trans ?_
    · exact (sortByKey_perm _ _).mem_iff.mp hmem
    · rw [dati_reschedule (hU.accoda_nodup he), if_neg hno, dati_accoda, dati_aggiorna,
        Function.update_of_ne (hne p he)]
      rfl
  | _ => rcases ht with ht | ht | ht <;> cases ht

/-- The processes found after a move are those found before, with what came and what went. -/
theorem bilancio (h : Mossa a t b) (hI : Inv a) (q : Pid) :
    b.presenze q + esce a t q = a.presenze q + entra t q := by
  cases h with
  | parte he =>
    have hne : a.pronti ≠ [] := by
      rcases hI.idle with h | h
      · rw [he] at h
        cases h
      · exact List.ne_nil_of_mem h
    rw [presenze_schedulatore hne]
    simp [presenze, entra, esce, he]
  | dati p d he hp h => simp [presenze, entra, esce]
  | chiude he => simp [presenze, entra, esce]
  | attiva p d he hfree hstato htick htotal hbase hmask hgestori =>
    simp only [presenze, inCoda_accoda, inCoda_setProcCount, inCoda_aggiorna, entra, esce,
      esecuzione_accoda, esecuzione_setProcCount, esecuzione_aggiorna]
    omega
  | termina p he hp =>
    have hne : ((a.aggiorna p DesProc.libero).setProcCount
        (int32 (a.procCount - 1))).pronti ≠ [] := hI.pronti_ne_nil he hp
    rw [presenze_schedulatore hne]
    simp only [presenze, inCoda_setProcCount, inCoda_aggiorna, entra, esce, he, count_some_toList]
    omega
  | semIni i valore hbusy =>
    have h := inCoda_setSem (a := a) (i := i) (q := q) ⟨[], valore, true⟩
    simp only [List.count_nil] at h
    simp only [presenze, entra, esce, esecuzione_setSem]
    omega
  | passa i hc =>
    simp [presenze, entra, esce]
  | blocca i p he hp hc =>
    have hne : ((a.setCount i (int32 ((a.sem i).count - 1))).setCoda i
        (insertByKey a.prec p (a.sem i).coda)).pronti ≠ [] := hI.pronti_ne_nil he hp
    rw [presenze_schedulatore hne]
    have h := inCoda_setCoda (a := a.setCount i (int32 ((a.sem i).count - 1))) (i := i) (q := q)
      (l := insertByKey a.prec p (a.sem i).coda)
    simp only [sem_setCount_self, inCoda_setCount, count_insertByKey] at h
    simp only [presenze, entra, esce, he, count_some_toList]
    omega
  | libera i hc =>
    simp [presenze, entra, esce]
  | sveglia i p r l he hc hq hprec =>
    have h := inCoda_setCoda (a := a.setCount i (int32 ((a.sem i).count + 1))) (i := i) (q := q)
      (l := l)
    simp only [sem_setCount_self, inCoda_setCount, hq, List.count_cons, beq_iff_eq] at h
    simp only [presenze, entra, esce, esecuzione_accoda, esecuzione_setCoda,
      esecuzione_setCount, inCoda_accoda]
    omega
  | cede i p r l he hc hq hprec =>
    have h := inCoda_setCoda (a := a.setCount i (int32 ((a.sem i).count + 1))) (i := i) (q := q)
      (l := l)
    simp only [sem_setCount_self, inCoda_setCount, hq, List.count_cons, beq_iff_eq] at h
    simp only [presenze, entra, esce, he, esecuzione_aggiorna, esecuzione_setEsecuzione,
      inCoda_aggiorna, inCoda_setEsecuzione, inCoda_accoda, count_some_toList]
    omega
  | dorme d x he hp hx =>
    have hne : (a.addormenta d x).pronti ≠ [] := hI.pronti_ne_nil he hp
    rw [presenze_schedulatore hne, inCoda_addormenta]
    simp only [presenze, entra, esce, he, count_some_toList]
    omega
  | orologio => simp [presenze, entra, esce]
  | conta p he =>
    simp [presenze, entra, esce]
  | prosegue p he hr ht => simp [presenze, entra, esce]
  | prelazione p he hr ht =>
    exact (Mossa.prelazione p he hr ht).turno_presenze (Or.inr (Or.inl rfl)) hI.unico q
  | rischedula p he hr =>
    exact (Mossa.rischedula p he hr).turno_presenze (Or.inr (Or.inr rfl)) hI.unico q

/-! ## The live processes -/

theorem vivi_eq (h : Mossa a t b) (hI : Inv a) : b.vivi = t.vivi a.vivi := by
  cases h with
  | parte he => exact vivi_schedulatore hI.pronti_vivi
  | dati p d he hp h =>
    apply vivi_aggiorna
    rw [h.stato]
  | chiude he => exact vivi_aggiorna Iff.rfl
  | attiva p d he hfree hstato htick htotal hbase hmask hgestori =>
    ext q
    simp only [mem_vivi, dati_accoda, setProcCount, dati_aggiorna, Atto.vivi, Finset.mem_insert]
    by_cases hq : q = p
    · subst hq
      simp [hstato]
    · simp [hq]
  | termina p he hp =>
    have hv : ((a.aggiorna p DesProc.libero).setProcCount (int32 (a.procCount - 1))).vivi =
        a.vivi.erase p := by
      ext q
      simp only [mem_vivi, setProcCount, dati_aggiorna, Finset.mem_erase]
      by_cases hq : q = p
      · subst hq
        simp
      · simp [hq]
    rw [vivi_schedulatore, hv]
    · rfl
    · intro q hq
      rw [hv]
      refine Finset.mem_erase.mpr ⟨fun e => ?_, hI.pronti_vivi q hq⟩
      have h0 := hI.inCoda_esecuzione he
      have h1 := presenze_pos_of_pronti (a := a) (p := q) hq
      rw [e] at h1
      omega
  | semIni i valore hbusy => rfl
  | passa i hc => rfl
  | blocca i p he hp hc => exact vivi_schedulatore hI.pronti_vivi
  | libera i hc => rfl
  | sveglia i p q l he hc hq hprec => rfl
  | cede i p q l he hc hq hprec =>
    have hv := mem_vivi.mp (hI.coda_vivi (i := i) q (by simp [hq]))
    apply vivi_aggiorna
    refine ⟨?_, fun h => absurd h hv⟩
    rintro ⟨⟩
  | dorme d x he hp hx => exact vivi_schedulatore hI.pronti_vivi
  | orologio => exact vivi_orologio hI.sonno_vivi
  | conta p he => exact vivi_aggiorna Iff.rfl
  | prosegue p he hr ht => rfl
  | prelazione p he hr ht => exact vivi_schedulatore (hI.accoda_vivi he)
  | rischedula p he hr =>
    have hv : (((a.setRescheduler 0).aggiorna p DesProc.addebitato).accoda p).vivi = a.vivi :=
      vivi_aggiorna (a := a.setRescheduler 0) Iff.rfl
    have hpronti : ∀ q ∈ (((a.setRescheduler 0).aggiorna p DesProc.addebitato).accoda p).pronti,
        q ∈ a.vivi := hI.accoda_vivi he
    have hresc := vivi_reschedule (hI.accoda_nodup he) (by rwa [hv])
    rw [vivi_schedulatore, hresc, hv]
    · rfl
    · intro q hq
      rw [hresc, hv]
      exact hpronti q ((sortByKey_perm _ _).mem_iff.mp hq)

/-! ## The idle process -/

theorem idle_schedulatore (h : Pitos.idle ∈ a.pronti) :
    a.schedulatore.esecuzione = some Pitos.idle ∨ Pitos.idle ∈ a.schedulatore.pronti := by
  obtain ⟨p, l, hp⟩ := List.exists_cons_of_ne_nil (List.ne_nil_of_mem h)
  rw [esecuzione_schedulatore hp, pronti_schedulatore hp]
  rw [hp] at h
  rcases List.mem_cons.mp h with h | h
  · exact Or.inl (congrArg some h.symm)
  · exact Or.inr h

theorem idle_accoda {c : Astratto} {p : Pid} (hc : c.esecuzione = some p)
    (h : c.esecuzione = some Pitos.idle ∨ Pitos.idle ∈ c.pronti) :
    Pitos.idle ∈ (c.accoda p).pronti := by
  apply mem_insertByKey.mpr
  rcases h with h | h
  · rw [hc] at h
    exact Or.inl (Option.some.inj h).symm
  · exact Or.inr h

theorem idle_eq (h : Mossa a t b) (hI : Inv a) :
    b.esecuzione = some Pitos.idle ∨ Pitos.idle ∈ b.pronti := by
  cases h with
  | parte he =>
    apply idle_schedulatore
    rcases hI.idle with h | h
    · rw [he] at h
      cases h
    · exact h
  | dati p d he hp h => exact hI.idle
  | chiude he => exact hI.idle
  | attiva p d he hfree hstato htick htotal hbase hmask hgestori =>
    exact hI.idle.imp id fun h => mem_insertByKey.mpr (Or.inr h)
  | termina p he hp => exact idle_schedulatore (hI.idle_pronti he hp)
  | semIni i valore hbusy => exact hI.idle
  | passa i hc => exact hI.idle
  | blocca i p he hp hc => exact idle_schedulatore (hI.idle_pronti he hp)
  | libera i hc => exact hI.idle
  | sveglia i p q l he hc hq hprec => exact hI.idle.imp id fun h => mem_insertByKey.mpr (Or.inr h)
  | cede i p q l he hc hq hprec =>
    exact Or.inr (idle_accoda (c := (a.setCount i _).setCoda i l) he hI.idle)
  | dorme d x he hp hx => exact idle_schedulatore (hI.idle_pronti he hp)
  | orologio =>
    rw [esecuzione_orologio]
    apply hI.idle.imp id
    intro h
    rw [Astratto.orologio, svegliaTutti_eq]
    exact (fillByKey_perm _ _ _).mem_iff.mpr (List.mem_append_right _ h)
  | conta p he => exact hI.idle
  | prosegue p he hr ht => exact hI.idle
  | prelazione p he hr ht =>
    exact idle_schedulatore (idle_accoda (c := a.setRescheduler _) he hI.idle)
  | rischedula p he hr =>
    refine idle_schedulatore ((sortByKey_perm _ _).mem_iff.mpr ?_)
    exact idle_accoda (c := (a.setRescheduler 0).aggiorna p DesProc.addebitato) he hI.idle

/-! ## The timer queue and the heap -/

theorem indirizzi_heap (h : Mossa a t b) (hI : Inv a) :
    (b.sonno.map fun r => r.1.1).Nodup ∧ b.vive.Perm (b.sonno.map fun r => r.1.1) := by
  have hsame : b.sonno = a.sonno → b.vive = a.vive →
      (b.sonno.map fun r => r.1.1).Nodup ∧ b.vive.Perm (b.sonno.map fun r => r.1.1) := by
    intro hs hv
    rw [hs, hv]
    exact ⟨hI.indirizzi, hI.heap⟩
  cases h with
  | parte he => exact hsame sonno_schedulatore vive_schedulatore
  | dorme d x he hp hx =>
    rw [sonno_schedulatore, vive_schedulatore]
    have h := (inserisciAttesa_perm d x a.sonno).map Prod.fst
    simp only [List.map_map, List.map_cons] at h
    have hx' : x.1 ∉ a.sonno.map (Prod.fst ∘ Prod.fst) := fun hmem => hx (hI.heap.mem_iff.mpr hmem)
    exact ⟨h.nodup_iff.mpr (List.nodup_cons.mpr ⟨hx', hI.indirizzi⟩),
      (hI.heap.cons x.1).trans h.symm⟩
  | orologio =>
    have hsplit : (scalaAttesa a.sonno).map (fun r => r.1.1) =
        (ringing (scalaAttesa a.sonno)).map (fun r => r.1.1) ++
          (waiting (scalaAttesa a.sonno)).map (fun r => r.1.1) := by
      rw [← List.map_append, ringing_append_waiting]
    have hscala : (scalaAttesa a.sonno).map (fun r => r.1.1) = a.sonno.map fun r => r.1.1 := by
      cases a.sonno <;> rfl
    have hnodup := hI.indirizzi
    have hheap := hI.heap
    rw [← hscala, hsplit] at hnodup hheap
    rw [Astratto.orologio, svegliaTutti_eq]
    refine ⟨(List.nodup_append.mp hnodup).2.1, ?_⟩
    have hdiff := hheap.diff_right ((ringing (scalaAttesa a.sonno)).map fun r => r.1.1)
    rwa [append_diff_left] at hdiff
  | termina p he hp => exact hsame sonno_schedulatore vive_schedulatore
  | blocca i p he hp hc => exact hsame sonno_schedulatore vive_schedulatore
  | prelazione p he hr ht => exact hsame sonno_schedulatore vive_schedulatore
  | rischedula p he hr =>
    refine hsame ?_ ?_
    · rw [sonno_schedulatore, sonno_reschedule]
      rfl
    · rw [vive_schedulatore, vive_reschedule]
      rfl
  | _ => exact hsame rfl rfl

/-! ## The invariant -/

theorem procCount_eq (h : Mossa a t b) (hI : Inv a) : b.procCount = b.vivi.card := by
  have hle : ∀ v : Finset Pid, v.card ≤ 20 := fun v => by simpa using v.card_le_univ
  rw [h.vivi_eq hI]
  cases h with
  | attiva p d he hfree hstato htick htotal hbase hmask hgestori =>
    have hp : p ∉ a.vivi := fun hp => mem_vivi.mp hp hfree
    have hcard := Finset.card_insert_of_notMem hp
    have := hle (insert p a.vivi)
    show int32 (a.procCount + 1) = ((insert p a.vivi).card : Int)
    rw [hI.conta, int32_of_range (by omega) (by simp only [INT_MAX]; omega), hcard]
    omega
  | termina p he hp =>
    have hcard := Finset.card_erase_of_mem (hI.esecuzione_vivi he)
    have hpos := Finset.card_pos.mpr ⟨p, hI.esecuzione_vivi he⟩
    have := hle a.vivi
    rw [procCount_schedulatore]
    show int32 (a.procCount - 1) = ((a.vivi.erase p).card : Int)
    rw [hI.conta, int32_of_range (by omega) (by simp only [INT_MAX]; omega), hcard]
    omega
  | parte he => exact procCount_schedulatore.trans hI.conta
  | blocca i p he hp hc => exact procCount_schedulatore.trans hI.conta
  | dorme d x he hp hx => exact procCount_schedulatore.trans hI.conta
  | prelazione p he hr ht => exact procCount_schedulatore.trans hI.conta
  | rischedula p he hr =>
    exact (procCount_schedulatore.trans procCount_reschedule).trans hI.conta
  | orologio =>
    rw [Astratto.orologio, svegliaTutti_eq]
    exact hI.conta
  | _ => exact hI.conta

theorem inv (h : Mossa a t b) (hI : Inv a) : Inv b := by
  refine ⟨fun q => ?_, fun q hq => ?_, h.idle_eq hI, h.procCount_eq hI, (h.indirizzi_heap hI).1,
    (h.indirizzi_heap hI).2⟩
  · have hb := h.bilancio hI q
    have ha := hI.unico q
    cases h with
    | attiva p d he hfree hstato htick htotal hbase hmask hgestori =>
      have h0 := hI.presenze_of_free hfree
      simp only [entra] at hb
      split at hb
      · rename_i hpq
        subst hpq
        omega
      · omega
    | _ =>
      simp only [entra] at hb
      omega
  · rw [h.vivi_eq hI]
    have hb := h.bilancio hI q
    cases h with
    | attiva p d he hfree hstato htick htotal hbase hmask hgestori =>
      apply Finset.mem_insert.mpr
      by_cases hpq : q = p
      · exact Or.inl hpq
      · refine Or.inr (hI.vivo q ?_)
        simp only [entra, if_neg (Ne.symm hpq)] at hb
        omega
    | termina p he hp =>
      refine Finset.mem_erase.mpr ⟨fun e => ?_, hI.vivo q ?_⟩
      · have := hI.unico q
        simp only [entra, esce, e, if_true] at hb hq this
        omega
      · simp only [entra] at hb
        omega
    | _ =>
      apply hI.vivo q
      simp only [entra] at hb
      omega

/-- Every live process has a place. -/
def Completo (a : Astratto) : Prop := ∀ p ∈ a.vivi, 1 ≤ a.presenze p

/-- Only the reinitialization of a semaphore where somebody waits can lose a process. -/
theorem completo (h : Mossa a t b) (hI : Inv a) (hC : Completo a)
    (ht : ∀ i valore, t = .semIni i valore → (a.sem i).coda = []) : Completo b := by
  intro q hq
  rw [h.vivi_eq hI] at hq
  have hb := h.bilancio hI q
  cases h with
  | attiva p d he hfree hstato htick htotal hbase hmask hgestori =>
    simp only [entra, esce] at hb
    rcases Finset.mem_insert.mp hq with rfl | hq
    · rw [if_pos rfl] at hb
      omega
    · have := hC q hq
      omega
  | termina p he hp =>
    obtain ⟨hne, hq⟩ := Finset.mem_erase.mp hq
    have := hC q hq
    simp only [entra, esce, if_neg (Ne.symm hne)] at hb
    omega
  | semIni i valore hbusy =>
    have := hC q hq
    simp only [entra, esce, ht i valore rfl, List.count_nil] at hb
    omega
  | _ =>
    have := hC q hq
    simp only [entra, esce] at hb
    omega

/-! ## Runs -/

theorem inv_run {ts : List Atto} (h : Run Mossa a ts b) (hI : Inv a) : Inv b :=
  h.invariant (fun _ _ _ hI h => h.inv hI) hI

theorem schedulatore_attivo {c : Astratto} (h : c.pronti ≠ []) :
    c.schedulatore.esecuzione ≠ none := by
  obtain ⟨p, l, hp⟩ := List.exists_cons_of_ne_nil h
  rw [esecuzione_schedulatore hp]
  exact Option.some_ne_none p

/-- Once a process has the CPU, some process has it. -/
theorem attivo (h : Mossa a t b) (hI : Inv a) (ha : a.esecuzione ≠ none) :
    b.esecuzione ≠ none := by
  cases h with
  | parte he => exact absurd he ha
  | termina p he hp => exact schedulatore_attivo (hI.pronti_ne_nil he hp)
  | blocca i p he hp hc => exact schedulatore_attivo (hI.pronti_ne_nil he hp)
  | dorme d x he hp hx => exact schedulatore_attivo (hI.pronti_ne_nil he hp)
  | prelazione p he hr ht => exact schedulatore_attivo pronti_accoda_ne_nil
  | rischedula p he hr =>
    exact schedulatore_attivo (pronti_reschedule_ne_nil pronti_accoda_ne_nil)
  | cede i p q l he hc hq hprec => exact Option.some_ne_none q
  | orologio =>
    rw [esecuzione_orologio]
    exact ha
  | _ => exact ha

/-- The process that the scheduler starts is live. -/
theorem schedulatore_vivo {c : Astratto} (h : c.pronti ≠ []) :
    ∃ r, c.schedulatore.esecuzione = some r ∧ r ∈ c.schedulatore.vivi := by
  obtain ⟨p, l, hp⟩ := List.exists_cons_of_ne_nil h
  refine ⟨p, esecuzione_schedulatore hp, mem_vivi.mpr ?_⟩
  simp [Astratto.schedulatore, hp, setEsecuzione, setPronti]

theorem turno_vivo (h : Mossa a t b) (ht : Turno t)
    (ha : ∃ r, a.esecuzione = some r ∧ r ∈ a.vivi) : ∃ r, b.esecuzione = some r ∧ r ∈ b.vivi := by
  cases h with
  | prosegue p he hr ht => exact ha
  | prelazione p he hr ht => exact schedulatore_vivo pronti_accoda_ne_nil
  | rischedula p he hr => exact schedulatore_vivo (pronti_reschedule_ne_nil pronti_accoda_ne_nil)
  | _ => rcases ht with ht | ht | ht <;> cases ht

/-! ## The registers of the others -/

theorem registri_aggiorna {c : Astratto} {p q : Pid} (f : DesProc → DesProc)
    (hf : ∀ d, StessiRegistri d (f d)) :
    StessiRegistri (c.dati q) ((c.aggiorna p f).dati q) := by
  by_cases hq : q = p
  · subst hq
    rw [dati_aggiorna, Function.update_self]
    exact hf _
  · rw [dati_aggiorna, Function.update_of_ne hq]
    exact .refl _

theorem registri_schedulatore {c : Astratto} {d : DesProc} {q : Pid}
    (h : StessiRegistri d (c.dati q)) : StessiRegistri d (c.schedulatore.dati q) := by
  unfold Astratto.schedulatore
  split
  · exact h
  · refine h.trans (StessiRegistri.trans ?_ (registri_aggiorna (c := c.saldo) DesProc.avviato
      fun d => ⟨rfl, rfl, rfl, rfl, rfl⟩))
    unfold saldo
    split
    · exact .refl _
    · exact registri_aggiorna DesProc.addebitato fun d => ⟨rfl, rfl, rfl, rfl, rfl⟩

/-- A move leaves the registers of a live process alone, except that the running process may
change its own. -/
theorem registri (h : Mossa a t b) (hI : Inv a) {q : Pid} (hq : q ∈ a.vivi)
    (ht : t = .dati → a.esecuzione ≠ some q) (hc : t = .chiude → a.esecuzione ≠ some q) :
    StessiRegistri (a.dati q) (b.dati q) := by
  cases h with
  | parte he => exact registri_schedulatore (.refl _)
  | dati p d he hp h =>
    have hqp : q ≠ p := fun e => ht rfl (e ▸ he)
    rw [dati_aggiorna, Function.update_of_ne hqp]
    exact .refl _
  | chiude he =>
    rw [dati_aggiorna, Function.update_of_ne (fun e => hc rfl (he.trans (congrArg some e.symm)))]
    exact .refl _
  | attiva p d he hfree hstato htick htotal hbase hmask hgestori =>
    have hqp : q ≠ p := fun e => mem_vivi.mp hq (e ▸ hfree)
    rw [dati_accoda]
    show StessiRegistri _ ((a.aggiorna p fun _ => d).dati q)
    rw [dati_aggiorna, Function.update_of_ne hqp]
    exact .refl _
  | termina p he hp =>
    exact registri_schedulatore
      (registri_aggiorna DesProc.libero fun d => ⟨rfl, rfl, rfl, rfl, rfl⟩)
  | blocca i p he hp hc => exact registri_schedulatore (.refl _)
  | cede i p q l he hc hq hprec =>
    exact registri_aggiorna DesProc.pronto fun d => ⟨rfl, rfl, rfl, rfl, rfl⟩
  | dorme d x he hp hx => exact registri_schedulatore (.refl _)
  | orologio =>
    rw [Astratto.orologio, svegliaTutti_eq]
    simp only [setSonno]
    split
    · exact ⟨rfl, rfl, rfl, rfl, rfl⟩
    · exact .refl _
  | conta p he => exact registri_aggiorna DesProc.contato fun d => ⟨rfl, rfl, rfl, rfl, rfl⟩
  | prelazione p he hr ht => exact registri_schedulatore (.refl _)
  | rischedula p he hr =>
    apply registri_schedulatore
    rw [dati_reschedule (hI.accoda_nodup he)]
    have h1 := registri_aggiorna (c := a.setRescheduler 0) (p := p) (q := q) DesProc.addebitato
      fun d => ⟨rfl, rfl, rfl, rfl, rfl⟩
    split
    · exact h1.trans (registri_aggiorna DesProc.ricalcolato fun d => ⟨rfl, rfl, rfl, rfl, rfl⟩)
    · exact h1
  | _ => exact .refl _

/-! ## Signals on the idle process -/

/-- No signal is pending on the idle process, and it has no handlers. -/
structure Muto (a : Astratto) : Prop where
  gestore : (a.dati Pitos.idle).sigHandlers ⟨SIGQUIT, by decide⟩ = SIG_DFL
  mask : (a.dati Pitos.idle).sigMask = 0

/-- Only the keyboard raises a signal on the idle process. -/
theorem muto (h : Mossa a t b) (hI : Inv a) (ht : t ≠ .chiude) (hM : Muto a) : Muto b := by
  have hreg := h.registri hI hI.idle_vivo (fun e he => by
      subst e
      cases h with
      | dati p d he' hp hd => exact hp (Option.some.inj (he'.symm.trans he)))
    fun e => absurd e ht
  exact ⟨hreg.sigHandlers ▸ hM.gestore, hreg.sigMask.trans hM.mask⟩

theorem muto_run {ts : List Atto} (h : Run Mossa a ts b) (hI : Inv a) (ht : .chiude ∉ ts)
    (hM : Muto a) : Muto b := by
  induction h with
  | nil => exact hM
  | cons hm _ ih =>
    exact ih (hm.inv hI) (fun h' => ht (List.mem_cons_of_mem _ h'))
      (hm.muto hI (fun e => ht (e ▸ List.mem_cons_self)) hM)

/-- A signal is pending on the idle process only while it runs, and then it is `SIGQUIT`. -/
structure Zitto (a : Astratto) : Prop where
  gestore : (a.dati Pitos.idle).sigHandlers ⟨SIGQUIT, by decide⟩ = SIG_DFL
  quit : (a.dati Pitos.idle).sigMask ≠ 0 → a.esecuzione = some Pitos.idle ∧
    (a.dati Pitos.idle).sigMask = (1 : Word) <<< SIGQUIT

theorem Muto.zitto (h : Muto a) : Zitto a := ⟨h.gestore, fun hmask => absurd h.mask hmask⟩

theorem Zitto.muto (h : Zitto a) (hmask : (a.dati Pitos.idle).sigMask = 0) : Muto a :=
  ⟨h.gestore, hmask⟩

theorem Zitto.chiude (hZ : Zitto a) (h : Mossa a .chiude b) : Zitto b := by
  cases h with
  | chiude he =>
    refine ⟨?_, fun _ => ⟨he, ?_⟩⟩
    · rw [dati_aggiorna, Function.update_self]
      exact hZ.gestore
    · rw [dati_aggiorna, Function.update_self]
      by_cases h0 : (a.dati Pitos.idle).sigMask = 0
      · simp [DesProc.chiuso, h0]
      · simp [DesProc.chiuso, (hZ.quit h0).2]

end Mossa

/-- The states of the running kernel. -/
structure Regolare (a : Astratto) : Prop where
  inv : Inv a
  attivo : a.esecuzione ≠ none
  zitto : Mossa.Zitto a

namespace Regolare

variable {a b : Astratto} {t : Atto} {ts : List Atto}

/-- While another process runs, no signal is pending on the idle process. -/
theorem muto (h : Regolare a) {p : Pid} (he : a.esecuzione = some p) (hp : p ≠ Pitos.idle) :
    Mossa.Muto a := by
  apply h.zitto.muto
  by_contra hmask
  exact hp (Option.some.inj (he.symm.trans (h.zitto.quit hmask).1))

theorem mossa (h : Regolare a) (hm : Mossa a t b) (ht : t ≠ .chiude) (hM : Mossa.Muto a) :
    Regolare b :=
  ⟨hm.inv h.inv, hm.attivo h.inv h.attivo, (hm.muto h.inv ht hM).zitto⟩

theorem run (h : Regolare a) (hr : Run Mossa a ts b) (ht : .chiude ∉ ts) (hM : Mossa.Muto a) :
    Regolare b := by
  refine ⟨Mossa.inv_run hr h.inv, ?_, (Mossa.muto_run hr h.inv ht hM).zitto⟩
  exact (hr.invariant (I := fun c => Inv c ∧ c.esecuzione ≠ none)
    (fun _ _ _ hc hm => ⟨hm.inv hc.1, hm.attivo hc.1 hc.2⟩) ⟨h.inv, h.attivo⟩).2

/-- The keyboard. -/
theorem chiude (h : Regolare a) (hm : Mossa a .chiude b) : Regolare b :=
  ⟨hm.inv h.inv, hm.attivo h.inv h.attivo, h.zitto.chiude hm⟩

end Regolare

end Pitos
