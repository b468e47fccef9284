import Pitos.Abstract.Precedence
import Pitos.Properties.RoundRobin

/-!
# Who gets the CPU

`precedenza`: a process that gets the CPU in an entry is behind no ready process, unless it is
handed the CPU by `ki_sem_signal`. The scheduler takes the first of a list in the order of the
priorities (`Ordinato.primo`), and what comes after it in the same entry makes nobody ready.
-/

namespace Pitos

open Lib

section Mosse

variable {a b c : Astratto} {t : Atto} {ts sig : List Atto} {p q r : Pid}

theorem Segnali.apre (h : Segnali sig) : ∀ t ∈ sig, ¬ t.Apre := by
  rcases h with rfl | rfl | ⟨r, -, rfl⟩ <;> simp [Atto.Apre]

/-- Behind the clock nothing in a tick brings a process into the race. -/
theorem coda_tick (h : Segnali sig) (ht : Turno t) :
    ∀ u ∈ Atto.conta :: (sig ++ [t]), ¬ u.Apre := by
  intro u hu
  rcases List.mem_cons.mp hu with rfl | hu
  · exact id
  · rcases List.mem_append.mp hu with hu | hu
    · exact h.apre u hu
    · obtain rfl := List.mem_singleton.mp hu
      rcases ht with rfl | rfl | rfl <;> exact id

/-- No ready process is in front of `q`. -/
def InTesta (q : Pid) (a : Astratto) : Prop := ∀ r ∈ a.pronti, a.prec q ≤ a.prec r

/-- The scheduler chooses such a process. -/
theorem Ordinato.primo (hO : Ordinato c) (he : c.schedulatore.esecuzione = some q) :
    InTesta q c.schedulatore := by
  cases hp : c.pronti with
  | nil =>
    have hs : c.schedulatore = c := by simp [Astratto.schedulatore, hp]
    intro r hr
    rw [hs, hp] at hr
    cases hr
  | cons x l =>
    rw [Astratto.esecuzione_schedulatore hp] at he
    obtain rfl := Option.some.inj he
    intro r hr
    rw [prec_schedulatore]
    rw [Astratto.pronti_schedulatore hp] at hr
    unfold Ordinato at hO
    rw [hp] at hO
    exact (List.pairwise_cons.mp hO).1 r hr

theorem Mossa.primo (h : Mossa a t b) (hO : Ordinato a) (ht : ¬ t.Apre)
    (he : b.esecuzione = some q) (ha : a.esecuzione = some q → InTesta q a) : InTesta q b := by
  cases h with
  | parte he' => exact hO.primo he
  | dati p d he' hp hd =>
    intro r hr
    have hprec : ∀ x, (a.aggiorna p fun _ => d).prec x = a.prec x :=
      Astratto.campo_aggiorna DesProc.prec hd.prec
    rw [hprec, hprec]
    exact ha he r hr
  | chiude he' =>
    intro r hr
    rw [prec_aggiorna (a := a) DesProc.chiuso fun _ => rfl]
    exact ha he r hr
  | attiva r d he' hfree hstato htick htotal hbase hmask hgestori => exact absurd trivial ht
  | termina r he' hr =>
    have hO' : Ordinato ((a.aggiorna r DesProc.libero).setProcCount (int32 (a.procCount - 1))) :=
      hO.congr (prec_aggiorna (a := a) DesProc.libero fun _ => rfl) rfl
    exact hO'.primo he
  | blocca i r he' hr hc =>
    have hO' : Ordinato ((a.setCount i (int32 ((a.sem i).count - 1))).setCoda i
        (insertByKey a.prec r (a.sem i).coda)) := hO
    exact hO'.primo he
  | sveglia i r q' l he' hc hq' hprec => exact absurd trivial ht
  | cede i r q' l he' hc hq' hprec => exact absurd trivial ht
  | dorme d x he' hr hx =>
    have hO' : Ordinato (a.addormenta d x) := hO
    exact hO'.primo he
  | orologio => exact absurd trivial ht
  | conta p he' =>
    intro r hr
    rw [prec_aggiorna (a := a) DesProc.contato fun _ => rfl]
    exact ha he r hr
  | prelazione r he' hr htick =>
    have hO' : Ordinato (a.setRescheduler (int32 (a.rescheduler + 1))) := hO
    exact hO'.accoda.primo he
  | rischedula r he' hr => exact (Ordinato.reschedule _).primo he
  | _ => exact ha he

theorem primo_run (h : Run Mossa a ts b) (hI : Inv a) (hO : Ordinato a)
    (ht : ∀ t ∈ ts, ¬ t.Apre) (he : b.esecuzione = some q)
    (ha : a.esecuzione = some q → InTesta q a) : InTesta q b := by
  induction h with
  | nil => exact ha he
  | cons hm _ ih =>
    exact ih (hm.inv hI) (hm.ordinato hI hO) (fun t h => ht t (List.mem_cons_of_mem _ h)) he
      fun hc => hm.primo hO (ht _ List.mem_cons_self) hc ha

/-- The first move of an entry leaves the CPU alone, or it is a handoff, or it chooses as the
scheduler does. -/
theorem Mossa.primo_cede (h : Mossa a t b) (hO : Ordinato a) (he : b.esecuzione = some q)
    (hne : a.esecuzione ≠ some q) : InTesta q b ∨ ∃ i p, t = .cede i p q := by
  by_cases ht : t.Apre
  · cases h with
    | attiva r d he' hfree hstato htick htotal hbase hmask hgestori => exact absurd he hne
    | sveglia i r q' l he' hc hq' hprec => exact absurd he hne
    | cede i r q' l he' hc hq' hprec =>
      obtain rfl := Option.some.inj he
      exact Or.inr ⟨i, r, rfl⟩
    | orologio =>
      rw [Astratto.esecuzione_orologio] at he
      exact absurd he hne
    | _ => exact absurd ht id
  · exact Or.inl (h.primo hO ht he fun h => absurd h hne)

theorem Traccia.primo {s : Kernel} {e : Evento} (h : Traccia s p e ts) (hr : Run Mossa a ts b)
    (hI : Inv a) (hO : Ordinato a) (he : b.esecuzione = some q) (hne : a.esecuzione ≠ some q) :
    InTesta q b ∨ ∃ i r us c, ts = .cede i r q :: us ∧ Mossa a (.cede i r q) c := by
  have hprima : ∀ {t : Atto} {us : List Atto}, ts = t :: us → (∀ u ∈ us, ¬ u.Apre) →
      InTesta q b ∨ ∃ i r us c, ts = .cede i r q :: us ∧ Mossa a (.cede i r q) c := by
    rintro t us rfl hus
    cases hr with
    | @cons _ c _ _ _ hm hrest =>
      by_cases hc : InTesta q c ∨ c.esecuzione ≠ some q
      · refine Or.inl (primo_run hrest (hm.inv hI) (hm.ordinato hI hO) hus he fun hce => ?_)
        exact hc.resolve_right fun h => h hce
      · have hce : c.esecuzione = some q := by
          by_contra hce
          exact hc (Or.inr hce)
        rcases hm.primo_cede hO hce hne with hp | ⟨i, r, rfl⟩
        · exact absurd (Or.inl hp) hc
        · exact Or.inr ⟨i, r, us, c, rfl, hm⟩
  cases e with
  | chiamata x =>
    obtain ⟨t, sig, ht, hsig, rfl⟩ := h
    exact hprima rfl hsig.apre
  | chiamataErrata =>
    obtain rfl := show ts = [] from h
    cases hr
    exact absurd he hne
  | tick =>
    obtain ⟨sig, t, hsig, ht, rfl⟩ := h
    exact hprima rfl (coda_tick hsig ht)
  | tasto code =>
    refine Or.inl (primo_run hr hI hO ?_ he fun h => absurd h hne)
    rw [show ts = _ from h]
    split
    · split <;> simp [Atto.Apre]
    · simp
  | eccezione =>
    obtain rfl := show ts = [.termina p] from h
    exact hprima rfl (by simp)
  | ritorno => exact absurd h id

/-- A handoff is made by `sem_signal`. -/
theorem Traccia.cede {s : Kernel} {e : Evento} {i : Fin MAXSEMS}
    (h : Traccia s p e (.cede i r q :: ts)) :
    ∃ hsem, maniglia hsem = some i ∧ e = .chiamata (.semSignal hsem) := by
  cases e with
  | chiamata x =>
    obtain ⟨t, sig, ht, -, heq⟩ := h
    obtain ⟨rfl, -⟩ := List.cons.inj heq
    cases x with
    | semSignal hsem =>
      refine ⟨hsem, ?_, rfl⟩
      simp only [Compie] at ht
      split at ht
      · cases ht
      · rename_i j hj
        rcases ht with ht | ⟨x, ht | ht⟩
        · cases ht
        · cases ht
        · cases ht
          exact hj
    | activateP f k prec idx risu stk => rcases ht with ht | ⟨x, ht⟩ <;> cases ht
    | semIni valore idx risu =>
      simp only [Compie] at ht
      split at ht <;> cases ht
    | semWait hsem =>
      simp only [Compie] at ht
      split at ht
      · cases ht
      · rcases ht with ht | ht <;> cases ht
    | _ => cases ht
  | chiamataErrata => cases h
  | tick =>
    obtain ⟨sig, t, -, -, heq⟩ := h
    cases heq
  | tasto code =>
    have heq : Atto.cede i r q :: ts = _ := h
    split at heq
    · split at heq <;> cases heq
    · cases heq
  | eccezione => cases h
  | ritorno => exact absurd h id

end Mosse

/-- While the idle process lives, a process that did not have the CPU before an entry and has it
after it is behind no ready process; or it was the first to wait at the semaphore of a `sem_signal`,
and is not behind the process that made the call. -/
theorem precedenza (es : List Evento) (s : Kernel) (h : Raggiunge IdleVivo es s) (e : Evento)
    (t : Kernel) (hav : Avanza IdleVivo s e t) (q : Pid) (ht : t.esecuzione = some q)
    (hs : s.esecuzione ≠ some q) : (∀ r, t.InPronti r → t.prec q ≤ t.prec r) ∨
      ∃ hsem i p, e = .chiamata (.semSignal hsem) ∧ maniglia hsem = some i ∧
        s.esecuzione = some p ∧ (s.dessem i).coda = some q ∧ s.prec q ≤ s.prec p := by
  obtain ⟨a, hR, hA, hG⟩ := h.giro
  obtain ⟨hposs, hv, heq⟩ := hav
  obtain ⟨p, ts, b, he, hts, hr, hRt, hAb⟩ := hR.mosse hA hposs heq (hv t heq)
  have hprec : ∀ {s : Kernel} {a : Astratto}, Rappr s a → ∀ x, s.prec x = a.prec x :=
    fun hR x => hR.prec x
  rcases hts.primo hr hA.inv hG.ordinato (hRt.esecuzione.symm.trans ht)
      (hR.esecuzione ▸ hs) with hp | ⟨i, r, us, c, hcede, hm⟩
  · refine Or.inl fun x hx => ?_
    rw [hprec hRt, hprec hRt]
    exact hp x (hRt.inPronti_iff.mp hx)
  · refine Or.inr ?_
    subst hcede
    obtain ⟨hsem, hman, rfl⟩ := hts.cede
    cases hm with
    | cede _ _ _ l he' hc hq hle =>
      refine ⟨hsem, i, r, rfl, hman, hR.esecuzione.trans he', ?_, ?_⟩
      · have hcoda := (hR.coda i).head_eq
        rw [hq] at hcoda
        exact hcoda
      · rw [hprec hR, hprec hR]
        exact hle

/-- The first process sleeps, and the second one gets the CPU before the idle process. -/
theorem precedenza_corsa : ∃ s t, Raggiunge IdleVivo [] s ∧
    Avanza IdleVivo s (.chiamata (.delay 100 1)) t ∧ t.esecuzione = some 2 ∧
      ∀ r, t.InPronti r → t.prec 2 ≤ t.prec r := by
  obtain ⟨x, hx, hP⟩ := Sistema.prova_raggiunge (B := fun _ => True)
    (G := fun x e => IdleVivo x.kernel e)
    [.attiva 0x7000 0 10 3 0x5010 0x5014 (pila 0x20000),
      .attiva 0x7100 0 12 3 0x5018 0x501c (pila 0x22000)] []
    (fun x => decide (x.kernel.esecuzione = some 1) &&
      (Sistema.tenta (fun x e => IdleVivo x.kernel e) x (.chiamata (.delay 100 1))).any fun y =>
        y.kernel.esecuzione = some 2) (by decide +kernel)
  obtain ⟨he, hany⟩ := Bool.and_eq_true_iff.mp hP
  obtain ⟨y, hy, ht⟩ := Option.any_eq_true _ _ |>.mp hany
  have hp := Sistema.tenta_passo hy
  have hav : Avanza IdleVivo x.kernel (.chiamata (.delay 100 1)) y.kernel :=
    ⟨hp.1, hp.2.1, hp.2.2.1⟩
  have hs := hx.kernel (H := IdleVivo) fun _ _ h => h
  have hne : x.kernel.esecuzione ≠ some 2 := by
    rw [of_decide_eq_true he]
    decide
  refine ⟨_, _, hs, hav, of_decide_eq_true ht, ?_⟩
  rcases precedenza [] _ hs _ _ hav 2 (of_decide_eq_true ht) hne with h | ⟨hsem, i, p, h, -⟩
  · exact h
  · cases h

end Pitos
