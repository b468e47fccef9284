import Pitos.Abstract.Semaphores

/-!
# Whose turn it is

The ready list is in the order of the priorities (`Ordinato`), and the ticks charged to the
running process and to those that wait at semaphores are within the quantum (`Quanti`): these
are the processes that get the CPU without a new quantum. A process that keeps the CPU through
a move keeps its ticks as well, except for the one that is charged (`Mossa.resta`), and it does
not keep it at the end of its quantum nor when new priorities are given, while a process that
is not behind it is ready (`Mossa.scade`).
-/

namespace Pitos

open Lib Astratto

/-- The ready processes stand in the order of their priorities. -/
def Ordinato (a : Astratto) : Prop := Sorted a.prec a.pronti

def Entro (n : Int) (d : DesProc) : Prop := 0 ≤ d.tick ∧ d.tick ≤ n

/-- The ticks of the running process, of which there are at most `n`, and of those that wait at
semaphores. -/
structure Quanti (n : Int) (a : Astratto) : Prop where
  esecuzione : ∀ p, a.esecuzione = some p → Entro n (a.dati p)
  coda : ∀ i, ∀ q ∈ (a.sem i).coda, Entro QUANTUM (a.dati q)

variable {a b c : Astratto} {t : Atto} {p q : Pid} {n : Int} {i : Fin MAXSEMS}

/-! ## The order of the ready list -/

namespace Ordinato

theorem congr (h : Ordinato a) (hprec : c.prec = a.prec) (hpronti : c.pronti = a.pronti) :
    Ordinato c := by
  unfold Ordinato
  rw [hprec, hpronti]
  exact h

theorem accoda (h : Ordinato c) : Ordinato (c.accoda p) := Sorted.insertByKey h

theorem schedulatore (h : Ordinato c) : Ordinato c.schedulatore := by
  cases hp : c.pronti with
  | nil => simpa [Astratto.schedulatore, hp] using h
  | cons p l =>
    unfold Ordinato at h ⊢
    rw [hp] at h
    rw [prec_schedulatore, pronti_schedulatore hp]
    exact (List.pairwise_cons.mp h).2

theorem aggiorna {f : DesProc → DesProc} (h : Ordinato a) (hf : ∀ d, (f d).prec = d.prec) :
    Ordinato (a.aggiorna p f) := h.congr (prec_aggiorna f hf) rfl

theorem orologio (h : Ordinato a) : Ordinato a.orologio := by
  have hsveglia : ∀ (l : List ((Addr × Pid) × Int)) (c : Astratto), Ordinato c →
      Ordinato (c.svegliaTutti l) := by
    intro l
    induction l with
    | nil => exact fun c hc => hc
    | cons r l ih =>
      refine fun c hc => ih _ ?_
      exact (accoda (p := r.1.2) (hc.aggiorna (p := r.1.2) (f := DesProc.pronto) fun _ => rfl)).congr
        rfl rfl
  exact hsveglia _ _ (h.congr rfl rfl)

theorem reschedule (c : Astratto) : Ordinato c.reschedule := sortByKey_sorted _ _

end Ordinato

theorem Mossa.ordinato (h : Mossa a t b) (hI : Inv a) (hO : Ordinato a) : Ordinato b := by
  cases h with
  | parte he => exact hO.schedulatore
  | dati p d he hp h =>
    refine hO.congr (funext fun q => ?_) rfl
    exact campo_aggiorna DesProc.prec h.prec q
  | chiude he => exact hO.aggiorna fun _ => rfl
  | attiva p d he hfree hstato htick htotal hbase hmask hgestori =>
    refine Ordinato.accoda (Sorted.congr hO fun q hq => ?_)
    have hne : q ≠ p := fun e => not_mem_pronti (hI.inCoda_of_free hfree) (e ▸ hq)
    simp [prec, setProcCount, hne]
  | termina p he hp =>
    refine Ordinato.schedulatore (Ordinato.congr (a := a.aggiorna p DesProc.libero) ?_ rfl rfl)
    exact hO.aggiorna fun _ => rfl
  | blocca i p he hp hc => exact Ordinato.schedulatore (hO.congr rfl rfl)
  | sveglia i p q l he hc hq hprec => exact Ordinato.accoda (hO.congr rfl rfl)
  | cede i p q l he hc hq hprec =>
    refine Ordinato.aggiorna (Ordinato.congr (Ordinato.accoda (p := p)
      (c := (a.setCount i (int32 ((a.sem i).count + 1))).setCoda i l) (hO.congr rfl rfl)) rfl rfl)
      fun _ => rfl
  | dorme d x he hp hx => exact Ordinato.schedulatore (hO.congr rfl rfl)
  | orologio => exact hO.orologio
  | conta p he => exact hO.aggiorna fun _ => rfl
  | prelazione p he hr ht => exact Ordinato.schedulatore (Ordinato.accoda (hO.congr rfl rfl))
  | rischedula p he hr => exact Ordinato.schedulatore (Ordinato.reschedule _)
  | _ => exact hO.congr rfl rfl

/-- Who waits at a semaphore keeps its priority, so a queue stays in order. -/
theorem Mossa.coda_ordinata (h : Mossa a t b) (hI : Inv a)
    (hO : ∀ i, Sorted a.prec (a.sem i).coda) (i : Fin MAXSEMS) : Sorted b.prec (b.sem i).coda := by
  have hkey : Sorted b.prec (a.sem i).coda := by
    refine (hO i).congr fun q hq => h.prec_eq hI (hI.coda_vivi q hq) fun _ =>
      ⟨fun hp => hI.separati.pronti_coda hp hq, fun he => ?_⟩
    have h1 := hI.inCoda_esecuzione he
    have h2 := presenze_pos_of_coda hq
    omega
  by_cases ht : t.riguarda i
  · cases h with
    | semIni j valore hbusy =>
      obtain rfl : j = i := ht
      simp [setSem, Sorted]
    | passa j hc =>
      obtain rfl : j = i := ht
      simpa [setCount, setSem] using hkey
    | blocca j p he hp hc =>
      obtain rfl : j = i := ht
      have hcoda : (((a.setCount j (int32 ((a.sem j).count - 1))).setCoda j
          (insertByKey a.prec p (a.sem j).coda)).sem j).coda =
          insertByKey a.prec p (a.sem j).coda := by simp [setCount, setCoda, setSem]
      rw [sem_schedulatore, prec_schedulatore, hcoda]
      exact Sorted.insertByKey (hO j)
    | libera j hc =>
      obtain rfl : j = i := ht
      simpa [setCount, setSem] using hkey
    | sveglia j p q l he hc hq hprec =>
      obtain rfl : j = i := ht
      rw [hq] at hkey
      have hcoda : ((((a.setCount j (int32 ((a.sem j).count + 1))).setCoda j l).accoda q).sem
          j).coda = l := by simp [accoda, setCount, setCoda, setSem]
      rw [hcoda]
      exact (List.pairwise_cons.mp hkey).2
    | cede j p q l he hc hq hprec =>
      obtain rfl : j = i := ht
      rw [hq] at hkey
      have hcoda : ((((((a.setCount j (int32 ((a.sem j).count + 1))).setCoda j l).accoda
          p).setEsecuzione (some q)).aggiorna q DesProc.pronto).sem j).coda = l := by
        simp [accoda, setCount, setCoda, setSem, setEsecuzione, Astratto.aggiorna]
      rw [hcoda]
      exact (List.pairwise_cons.mp hkey).2
    | _ => exact absurd ht id
  · rw [h.sem_eq ht]
    exact hkey

/-! ## The ticks -/

theorem tick_saldo : (c.saldo.dati q).tick = (c.dati q).tick :=
  campo_saldo DesProc.tick (fun _ => rfl) q

/-- A process that gets the CPU from the scheduler has a new quantum. -/
theorem tick_schedulatore {l : List Pid} (hc : c.pronti = p :: l) (q : Pid) :
    (c.schedulatore.dati q).tick = if q = p then 0 else (c.dati q).tick := by
  simp only [Astratto.schedulatore, hc, setEsecuzione, setPronti, dati_aggiorna]
  by_cases hq : q = p
  · subst hq
    simp
  · rw [Function.update_of_ne hq, if_neg hq]
    exact tick_saldo

theorem Entro.schedulatore (h : Entro n (c.dati q)) (hn : 0 ≤ n) :
    Entro n (c.schedulatore.dati q) := by
  unfold Astratto.schedulatore
  split
  · exact h
  · rename_i p l hp
    show Entro n ((c.saldo.aggiorna p DesProc.avviato).dati q)
    by_cases hq : q = p
    · subst hq
      rw [dati_aggiorna, Function.update_self]
      exact ⟨le_refl _, hn⟩
    · rw [dati_aggiorna, Function.update_of_ne hq]
      unfold Entro
      rw [tick_saldo]
      exact h

/-- After the end of a process another one has the CPU, with a new quantum. -/
theorem Mossa.termina_tick (h : Mossa a (.termina p) b) (hI : Inv a) :
    ∃ r, b.esecuzione = some r ∧ (b.dati r).tick = 0 := by
  cases h with
  | termina _ he hp =>
    obtain ⟨r, l, hr⟩ := List.exists_cons_of_ne_nil (hI.pronti_ne_nil he hp)
    refine ⟨r, esecuzione_schedulatore hr, ?_⟩
    refine (tick_schedulatore (l := l) ?_ r).trans (if_pos rfl)
    exact hr

namespace Quanti

/-- The scheduler starts a new quantum. -/
theorem schedulatore (hn : 0 ≤ n) (hcoda : ∀ i, ∀ q ∈ (c.sem i).coda, Entro QUANTUM (c.dati q))
    (he : c.pronti = [] → ∀ p, c.esecuzione = some p → Entro n (c.dati p)) :
    Quanti n c.schedulatore := by
  constructor
  · intro p hp
    cases hpronti : c.pronti with
    | nil =>
      have hs : c.schedulatore = c := by simp [Astratto.schedulatore, hpronti]
      rw [hs] at hp ⊢
      exact he hpronti p hp
    | cons r l =>
      rw [esecuzione_schedulatore hpronti] at hp
      obtain rfl := Option.some.inj hp
      simp only [Astratto.schedulatore, hpronti, setEsecuzione, setPronti, dati_aggiorna,
        Function.update_self]
      exact ⟨le_refl _, hn⟩
  · intro i q hq
    rw [sem_schedulatore] at hq
    exact (hcoda i q hq).schedulatore (by decide)

/-- A move that keeps the ticks and gives the CPU to nobody but a process that waited at a
semaphore. -/
theorem tieni (h : Quanti n a) (hn : QUANTUM ≤ n) (htick : ∀ q, (b.dati q).tick = (a.dati q).tick)
    (he : ∀ p, b.esecuzione = some p → a.esecuzione = some p ∨ ∃ i, p ∈ (a.sem i).coda)
    (hcoda : ∀ i, ∀ q ∈ (b.sem i).coda, q ∈ (a.sem i).coda) : Quanti n b := by
  constructor
  · intro p hp
    unfold Entro
    rw [htick]
    rcases he p hp with hp | ⟨i, hp⟩
    · exact h.esecuzione p hp
    · exact ⟨(h.coda i p hp).1, (h.coda i p hp).2.trans hn⟩
  · intro i q hq
    unfold Entro
    rw [htick]
    exact h.coda i q (hcoda i q hq)

end Quanti

theorem tick_aggiorna {f : DesProc → DesProc} (hf : (f (a.dati p)).tick = (a.dati p).tick) (q : Pid) :
    ((a.aggiorna p f).dati q).tick = (a.dati q).tick := campo_aggiorna DesProc.tick hf q

theorem tick_orologio (q : Pid) : (a.orologio.dati q).tick = (a.dati q).tick := by
  rw [orologio, svegliaTutti_eq]
  simp only [setSonno]
  split <;> rfl

theorem tick_reschedule (hl : c.pronti.Nodup) (q : Pid) :
    (c.reschedule.dati q).tick = (c.dati q).tick := by
  rw [dati_reschedule hl]
  split
  · exact tick_aggiorna rfl q
  · rfl

/-- Who waits when the first of a semaphore has been taken off has waited before. -/
theorem mem_coda_tolta {i j : Fin MAXSEMS} {k : Int} {r : Pid} {l : List Pid}
    (hq : (a.sem i).coda = q :: l)
    (hr : r ∈ (((a.setCount i k).setCoda i l).sem j).coda) : r ∈ (a.sem j).coda := by
  rw [coda_setCoda, coda_setCount] at hr
  split at hr
  · rename_i hj
    rw [hj, hq]
    exact List.mem_cons_of_mem _ hr
  · exact hr

/-- A move other than the charge of a tick keeps the ticks in range. A process that blocks has
not used up its quantum. -/
theorem Mossa.quanti (h : Mossa a t b) (hI : Inv a) (hn : QUANTUM ≤ n) (hQ : Quanti n a)
    (ht : t ≠ .conta) (hb : ∀ i p, t = .blocca i p → n = QUANTUM) : Quanti n b := by
  have hn0 : 0 ≤ n := le_trans (by decide) hn
  cases h with
  | parte he =>
    apply Quanti.schedulatore hn0 hQ.coda
    intro _ p hp
    rw [he] at hp
    cases hp
  | dati p d he hp h =>
    exact hQ.tieni hn (tick_aggiorna h.tick) (fun _ => Or.inl) fun _ _ => id
  | chiude he => exact hQ.tieni hn (tick_aggiorna rfl) (fun _ => Or.inl) fun _ _ => id
  | attiva p d he hfree hstato htick htotal hbase hmask hgestori =>
    have hdati : ∀ q, q ∈ a.vivi →
        (((a.aggiorna p fun _ => d).setProcCount (int32 (a.procCount + 1))).accoda p).dati q =
          a.dati q := fun q hq => by
      have hne : q ≠ p := fun e => mem_vivi.mp hq (e ▸ hfree)
      simp [setProcCount, hne]
    constructor
    · intro q hq
      rw [hdati q (hI.esecuzione_vivi hq)]
      exact hQ.esecuzione q hq
    · intro i q hq
      rw [hdati q (hI.coda_vivi q hq)]
      exact hQ.coda i q hq
  | termina p he hp =>
    have h₁ : Quanti n (a.aggiorna p DesProc.libero) :=
      hQ.tieni hn (tick_aggiorna rfl) (fun _ => Or.inl) fun _ _ => id
    exact Quanti.schedulatore hn0 h₁.coda fun hnil => absurd hnil (hI.pronti_ne_nil he hp)
  | semIni i valore hbusy =>
    refine hQ.tieni hn (fun _ => rfl) (fun _ => Or.inl) fun j q hq => ?_
    by_cases hji : j = i
    · subst hji
      simp [setSem] at hq
    · simpa only [setSem, Function.update_of_ne hji] using hq
  | passa i hc =>
    exact hQ.tieni hn (fun _ => rfl) (fun _ => Or.inl) fun j q hq => by simpa using hq
  | blocca i p he hp hc =>
    refine Quanti.schedulatore hn0 (fun j q hq => ?_) fun hnil =>
      absurd hnil (hI.pronti_ne_nil he hp)
    rw [coda_setCoda] at hq
    split at hq
    · rcases mem_insertByKey.mp hq with rfl | hq
      · exact hb i q rfl ▸ hQ.esecuzione q he
      · exact hQ.coda i q hq
    · exact hQ.coda j q (by simpa using hq)
  | libera i hc =>
    exact hQ.tieni hn (fun _ => rfl) (fun _ => Or.inl) fun j q hq => by simpa using hq
  | sveglia i p q l he hc hq hprec =>
    exact hQ.tieni hn (fun _ => rfl) (fun _ => Or.inl) fun j r => mem_coda_tolta hq
  | cede i p q l he hc hq hprec =>
    refine hQ.tieni hn (tick_aggiorna rfl) (fun r hr => ?_) fun j r hr => ?_
    · obtain rfl := Option.some.inj hr
      exact Or.inr ⟨i, by rw [hq]; exact List.mem_cons_self⟩
    · exact mem_coda_tolta hq hr
  | dorme d x he hp hx =>
    exact Quanti.schedulatore hn0 hQ.coda fun hnil => absurd hnil (hI.pronti_ne_nil he hp)
  | orologio =>
    refine hQ.tieni hn tick_orologio (fun p hp => Or.inl ?_) fun i q hq => ?_
    · rwa [esecuzione_orologio] at hp
    · rwa [sem_orologio] at hq
  | conta p he => exact absurd rfl ht
  | prosegue p he hr ht => exact ⟨hQ.esecuzione, hQ.coda⟩
  | prelazione p he hr ht =>
    exact Quanti.schedulatore hn0 hQ.coda fun hnil => absurd hnil pronti_accoda_ne_nil
  | rischedula p he hr =>
    refine Quanti.schedulatore hn0 (fun i q hq => ?_) fun hnil =>
      absurd hnil (pronti_reschedule_ne_nil pronti_accoda_ne_nil)
    rw [sem_reschedule] at hq
    unfold Entro
    rw [tick_reschedule (hI.accoda_nodup he), dati_accoda, tick_aggiorna rfl]
    exact hQ.coda i q hq

/-- The charge of a tick, which does not wrap. -/
theorem Mossa.quanti_conta (h : Mossa a .conta b) (hI : Inv a) (hQ : Quanti QUANTUM a) :
    Quanti (QUANTUM + 1) b := by
  cases h with
  | conta p he =>
    obtain ⟨h1, h2⟩ := hQ.esecuzione p he
    have hmax : (QUANTUM : Int) + 1 ≤ INT_MAX := by decide
    have htick : int32 ((a.dati p).tick + 1) = (a.dati p).tick + 1 :=
      int32_of_range (by omega) (by omega)
    constructor
    · intro q hq
      obtain rfl := Option.some.inj (he.symm.trans hq)
      rw [dati_aggiorna, Function.update_self]
      show 0 ≤ int32 ((a.dati p).tick + 1) ∧ int32 ((a.dati p).tick + 1) ≤ QUANTUM + 1
      omega
    · intro i q hq
      have hqp : q ≠ p := by
        rintro rfl
        have h3 : q ∈ (a.sem i).coda := hq
        have := presenze_pos_of_coda h3
        have := hI.inCoda_esecuzione he
        omega
      rw [dati_aggiorna, Function.update_of_ne hqp]
      exact hQ.coda i q hq

/-- After the decision whose turn it is the quantum is kept again. -/
theorem Mossa.quanti_turno (h : Mossa a t b) (ht : Turno t) (hI : Inv a)
    (hQ : Quanti (QUANTUM + 1) a) : Quanti QUANTUM b := by
  have hn : (0 : Int) ≤ QUANTUM := by decide
  rcases ht with rfl | rfl | rfl
  · cases h with
    | prosegue p he hr ht =>
      refine ⟨?_, hQ.coda⟩
      intro q hq
      obtain rfl := Option.some.inj (he.symm.trans hq)
      exact ⟨(hQ.esecuzione p he).1, ht⟩
  · cases h with
    | prelazione p he hr ht =>
      exact Quanti.schedulatore hn hQ.coda fun hnil => absurd hnil pronti_accoda_ne_nil
  · cases h with
    | rischedula p he hr =>
      refine Quanti.schedulatore hn (fun i q hq => ?_) fun hnil =>
        absurd hnil (pronti_reschedule_ne_nil pronti_accoda_ne_nil)
      rw [sem_reschedule] at hq
      unfold Entro
      rw [tick_reschedule (hI.accoda_nodup he), dati_accoda, tick_aggiorna rfl]
      exact hQ.coda i q hq

/-- Between the decisions whose turn it is the count of the ticks stands still. -/
theorem Mossa.rescheduler_eq (h : Mossa a t b) (ht : ¬ Turno t) : b.rescheduler = a.rescheduler := by
  cases h with
  | parte he => exact rescheduler_schedulatore
  | termina p he hp => exact rescheduler_schedulatore
  | blocca i p he hp hc => exact rescheduler_schedulatore
  | dorme d x he hp hx => exact rescheduler_schedulatore
  | orologio =>
    rw [Astratto.orologio, svegliaTutti_eq]
    rfl
  | prosegue p he hr htick => exact absurd (Or.inl rfl) ht
  | prelazione p he hr htick => exact absurd (Or.inr (Or.inl rfl)) ht
  | rischedula p he hr => exact absurd (Or.inr (Or.inr rfl)) ht
  | _ => rfl

/-! ## Keeping the CPU -/

/-- The moves that end the turn of a process though they make it ready. -/
def Scade (t : Atto) : Prop := t = .prelazione ∨ t = .rischedula

/-- `p` has kept the CPU and was charged for `n` ticks, nobody has left the ready list, and the
priorities are the same. -/
structure Resta (p : Pid) (n : Int) (a b : Astratto) : Prop where
  esecuzione : b.esecuzione = some p
  tick : (b.dati p).tick = (a.dati p).tick + n
  pronti : ∀ q ∈ a.pronti, q ∈ b.pronti
  prec : ∀ q, q = p ∨ q ∈ a.pronti → b.prec q = a.prec q

theorem Resta.refl (he : a.esecuzione = some p) : Resta p 0 a a :=
  ⟨he, (add_zero _).symm, fun _ => id, fun _ _ => rfl⟩

theorem Resta.trans {m : Int} (h : Resta p m a b) (h' : Resta p n b c) : Resta p (m + n) a c := by
  refine ⟨h'.esecuzione, ?_, fun q hq => h'.pronti q (h.pronti q hq), ?_⟩
  · rw [h'.tick, h.tick, add_assoc]
  · intro q hq
    rw [h'.prec q (hq.imp_right (h.pronti q)), h.prec q hq]

theorem Mossa.tick_pronti (h : Mossa a t b) (hI : Inv a) (he : a.esecuzione = some p)
    (hb : b.esecuzione = some p) (ht : ¬ Scade t) :
    (b.dati p).tick = (if t = .conta then int32 ((a.dati p).tick + 1) else (a.dati p).tick) ∧
      ∀ q ∈ a.pronti, q ∈ b.pronti := by
  cases h with
  | parte hnone =>
    rw [he] at hnone
    cases hnone
  | dati r d her hr h => exact ⟨tick_aggiorna h.tick p, fun _ => id⟩
  | chiude her => exact ⟨tick_aggiorna rfl p, fun _ => id⟩
  | attiva r d her hfree hstato htick htotal hbase hmask hgestori =>
    have hne : p ≠ r := fun e => mem_vivi.mp (hI.esecuzione_vivi he) (e ▸ hfree)
    refine ⟨?_, fun q hq => mem_insertByKey.mpr (Or.inr hq)⟩
    rw [if_neg (by rintro ⟨⟩), dati_accoda]
    show ((a.aggiorna r fun _ => d).dati p).tick = _
    rw [dati_aggiorna, Function.update_of_ne hne]
  | termina r her hr =>
    obtain rfl := Option.some.inj (he.symm.trans her)
    exact absurd hb (hI.schedulatore_ne he hr rfl)
  | blocca i r her hr hc =>
    obtain rfl := Option.some.inj (he.symm.trans her)
    exact absurd hb (hI.schedulatore_ne he hr rfl)
  | sveglia i r q l her hc hq hprec => exact ⟨rfl, fun q hq => mem_insertByKey.mpr (Or.inr hq)⟩
  | cede i r q l her hc hq hprec =>
    obtain rfl := Option.some.inj hb
    have hmem : q ∈ (a.sem i).coda := by
      rw [hq]
      exact List.mem_cons_self
    have := presenze_pos_of_coda hmem
    have := hI.inCoda_esecuzione he
    omega
  | dorme d x her hr hx =>
    obtain rfl := Option.some.inj (he.symm.trans her)
    exact absurd hb (hI.schedulatore_ne he hr rfl)
  | orologio =>
    refine ⟨tick_orologio p, ?_⟩
    intro q hq
    rw [Astratto.orologio, svegliaTutti_eq]
    exact (fillByKey_perm _ _ _).mem_iff.mpr (List.mem_append_right _ hq)
  | conta r her =>
    obtain rfl := Option.some.inj (he.symm.trans her)
    refine ⟨?_, fun _ => id⟩
    rw [if_pos rfl, dati_aggiorna, Function.update_self]
    rfl
  | prelazione r her hr htick => exact absurd (Or.inl rfl) ht
  | rischedula r her hr => exact absurd (Or.inr rfl) ht
  | _ => exact ⟨rfl, fun _ => id⟩

/-- A process that has the CPU before and after a move keeps its ticks as well, except for the
one that `conta` charges. -/
theorem Mossa.resta (h : Mossa a t b) (hI : Inv a) (he : a.esecuzione = some p)
    (hb : b.esecuzione = some p) (ht : ¬ Scade t) (hc : t ≠ .conta) : Resta p 0 a b := by
  obtain ⟨htick, hpronti⟩ := h.tick_pronti hI he hb ht
  rw [if_neg hc] at htick
  refine ⟨hb, by rw [htick, add_zero], hpronti, ?_⟩
  intro q hq
  refine h.prec_eq hI ?_ fun e => absurd (Or.inr e) ht
  rcases hq with rfl | hq
  · exact hI.esecuzione_vivi he
  · exact hI.pronti_vivi q hq

theorem Mossa.resta_conta (h : Mossa a .conta b) (hI : Inv a) (hQ : Quanti QUANTUM a)
    (he : a.esecuzione = some p) : Resta p 1 a b := by
  have hb : b.esecuzione = some p := by
    cases h with
    | conta _ _ => exact he
  obtain ⟨htick, hpronti⟩ := h.tick_pronti hI he hb (by simp [Scade])
  obtain ⟨h1, h2⟩ := hQ.esecuzione p he
  have hmax : (QUANTUM : Int) + 1 ≤ INT_MAX := by decide
  rw [if_pos rfl, int32_of_range (by omega) (by omega)] at htick
  refine ⟨hb, htick, hpronti, fun q hq => h.prec_eq hI ?_ (by rintro ⟨⟩)⟩
  rcases hq with rfl | hq
  · exact hI.esecuzione_vivi he
  · exact hI.pronti_vivi q hq

/-- At the end of its quantum, and when new priorities are given, a process does not keep the
CPU while another that is not behind it is ready. -/
theorem Mossa.scade (h : Mossa a t b) (ht : Scade t) (hI : Inv a) (hO : Ordinato a)
    (he : a.esecuzione = some p) (hq : q ∈ a.pronti) (hprec : a.prec q ≤ a.prec p)
    (hprec' : b.prec q ≤ b.prec p) : b.esecuzione ≠ some p := by
  have hp : p ∉ a.pronti := not_mem_pronti (hI.inCoda_esecuzione he)
  have hhead : ∀ {c : Astratto}, c.pronti ≠ [] → c.pronti.head? ≠ some p →
      c.schedulatore.esecuzione ≠ some p := by
    intro c hne hc
    obtain ⟨r, l, hr⟩ := List.exists_cons_of_ne_nil hne
    rw [hr] at hc
    rw [esecuzione_schedulatore hr]
    exact hc
  rcases ht with rfl | rfl
  · cases h with
    | prelazione r her hr htick =>
      obtain rfl := Option.some.inj (he.symm.trans her)
      refine hhead pronti_accoda_ne_nil fun e => hp (List.mem_of_mem_head? ?_)
      exact (head_insertByKey hO hq hprec).symm.trans e
  · cases h with
    | rischedula r her hr =>
      obtain rfl := Option.some.inj (he.symm.trans her)
      have hkey : ((a.setRescheduler 0).aggiorna p DesProc.addebitato).prec = a.prec :=
        prec_aggiorna _ fun _ => rfl
      obtain ⟨l₁, l₂, hl, hl₁, hql⟩ := insertByKey_split hO hp hq hprec
      rw [prec_schedulatore] at hprec'
      apply hhead (pronti_reschedule_ne_nil pronti_accoda_ne_nil)
      refine head_sortByKey_ne (b := l₂) ?_ hl₁ hql hprec'
      show insertByKey _ p a.pronti = _
      rw [hkey]
      exact hl

end Pitos
