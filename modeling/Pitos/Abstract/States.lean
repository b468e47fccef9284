import Pitos.Abstract.Turns

/-!
# What the field `stato` says

`Vero a`: the states written in the descriptors are those of the places, and nobody waits. No
move writes `BLOCCATO` (`Mossa.maiBloccato`), so nobody who waits is marked as such; the moves
that make nobody wait keep `Vero`, except for one: a process at the end of its quantum goes
back to the ready list still marked as running, and the mark is wrong unless the same process is
the next to run (`Mossa.vero`).
-/

namespace Pitos

open Lib Astratto

/-- Nobody is marked as blocked. -/
def MaiBloccato (a : Astratto) : Prop := ∀ p, (a.dati p).stato ≠ .BLOCCATO

structure Vero (a : Astratto) : Prop where
  running : ∀ p, (a.dati p).stato = .RUNNING ↔ a.esecuzione = some p
  pronto : ∀ p, (a.dati p).stato = .PRONTO ↔ p ∈ a.pronti
  code : ∀ i, (a.sem i).coda = []
  sonno : a.sonno = []

variable {a b c : Astratto} {t : Atto} {p q : Pid} {l : List Pid}

/-- What the scheduler writes in the field. -/
theorem stato_avviato (hc : c.pronti = q :: l) (p : Pid) :
    (c.schedulatore.dati p).stato = if p = q then .RUNNING else (c.dati p).stato := by
  simp only [Astratto.schedulatore, hc, setEsecuzione, setPronti, dati_aggiorna]
  by_cases hp : p = q
  · subst hp
    simp
  · rw [Function.update_of_ne hp, if_neg hp]
    exact stato_saldo

theorem stato_orologio (p : Pid) : (a.orologio.dati p).stato = .PRONTO ∨
    (a.orologio.dati p).stato = (a.dati p).stato := by
  rw [orologio, svegliaTutti_eq]
  simp only [setSonno]
  split
  · exact Or.inl rfl
  · exact Or.inr rfl

theorem stato_reschedule (hl : c.pronti.Nodup) (p : Pid) :
    (c.reschedule.dati p).stato = if p ∈ c.pronti then .PRONTO else (c.dati p).stato := by
  rw [dati_reschedule hl]
  split
  · simp [Astratto.ricalcola]
  · rfl

/-! ## Nobody is marked as blocked -/

namespace MaiBloccato

theorem aggiorna {f : DesProc → DesProc} (h : MaiBloccato c)
    (hf : (f (c.dati q)).stato = (c.dati q).stato ∨ (f (c.dati q)).stato ≠ .BLOCCATO) :
    MaiBloccato (c.aggiorna q f) := by
  intro p
  rw [stato_aggiorna]
  split
  · rcases hf with hf | hf
    · rw [hf]
      exact h q
    · exact hf
  · exact h p

theorem schedulatore (h : MaiBloccato c) : MaiBloccato c.schedulatore := by
  intro p
  cases hc : c.pronti with
  | nil =>
    have hs : c.schedulatore = c := by simp [Astratto.schedulatore, hc]
    rw [hs]
    exact h p
  | cons q l =>
    rw [stato_avviato hc]
    split
    · rintro ⟨⟩
    · exact h p

end MaiBloccato

theorem Mossa.maiBloccato (h : Mossa a t b) (hI : Inv a) (hB : MaiBloccato a) : MaiBloccato b := by
  cases h with
  | parte he => exact hB.schedulatore
  | dati p d he hp h => exact hB.aggiorna (Or.inl h.stato)
  | chiude he => exact hB.aggiorna (Or.inl rfl)
  | attiva p d he hfree hstato htick htotal hbase hmask hgestori =>
    have h₁ : MaiBloccato (a.aggiorna p fun _ => d) := by
      refine hB.aggiorna (Or.inr ?_)
      rw [hstato]
      rintro ⟨⟩
    exact h₁
  | termina p he hp =>
    have h₁ : MaiBloccato (a.aggiorna p DesProc.libero) := hB.aggiorna (Or.inr (by rintro ⟨⟩))
    exact MaiBloccato.schedulatore h₁
  | blocca i p he hp hc => exact MaiBloccato.schedulatore hB
  | cede i p q l he hc hq hprec =>
    exact MaiBloccato.aggiorna (c := (((a.setCount i _).setCoda i l).accoda p).setEsecuzione _)
      hB (Or.inr (by rintro ⟨⟩))
  | dorme d x he hp hx => exact MaiBloccato.schedulatore hB
  | orologio =>
    intro p
    rcases stato_orologio (a := a) p with h | h
    · rw [h]
      rintro ⟨⟩
    · rw [h]
      exact hB p
  | conta p he => exact hB.aggiorna (Or.inl rfl)
  | prelazione p he hr ht => exact MaiBloccato.schedulatore hB
  | rischedula p he hr =>
    have h₁ : MaiBloccato ((a.setRescheduler 0).aggiorna p DesProc.addebitato) :=
      MaiBloccato.aggiorna (c := a.setRescheduler 0) hB (Or.inl rfl)
    apply MaiBloccato.schedulatore
    intro q
    rw [stato_reschedule (hI.accoda_nodup he)]
    split
    · rintro ⟨⟩
    · exact h₁ q
  | _ => exact hB

/-! ## The marks of the running and the ready processes -/

namespace Vero

/-- The scheduler makes the marks right if at most the process that it starts is marked as
running, and all others that are ready are marked so. -/
theorem schedulatore (hl : c.pronti.Nodup) (hc : c.pronti = q :: l)
    (hrun : ∀ p, (c.dati p).stato = .RUNNING → p = q)
    (hpronto : ∀ p, (c.dati p).stato = .PRONTO → p ∈ c.pronti)
    (hcoda : ∀ p ∈ l, (c.dati p).stato = .PRONTO) (hcode : ∀ i, (c.sem i).coda = [])
    (hsonno : c.sonno = []) : Vero c.schedulatore := by
  have hql : q ∉ l := by
    rw [hc] at hl
    exact (List.nodup_cons.mp hl).1
  refine ⟨?_, ?_, ?_, sonno_schedulatore.trans hsonno⟩
  · intro p
    rw [stato_avviato hc, esecuzione_schedulatore hc]
    by_cases hp : p = q
    · rw [if_pos hp, hp]
      exact ⟨fun _ => rfl, fun _ => rfl⟩
    · rw [if_neg hp]
      exact ⟨fun h => absurd (hrun p h) hp, fun h => absurd (Option.some.inj h).symm hp⟩
  · intro p
    rw [stato_avviato hc, pronti_schedulatore hc]
    by_cases hp : p = q
    · rw [if_pos hp, hp]
      exact ⟨fun h => (by cases h), fun h => absurd h hql⟩
    · rw [if_neg hp]
      refine ⟨?_, hcoda p⟩
      intro h
      have hmem := hpronto p h
      rw [hc] at hmem
      exact (List.mem_cons.mp hmem).resolve_left hp
  · intro i
    rw [sem_schedulatore]
    exact hcode i

/-- What is written leaves the field as it is. -/
theorem congr (h : Vero a) (hstato : ∀ p, (b.dati p).stato = (a.dati p).stato)
    (he : b.esecuzione = a.esecuzione) (hp : b.pronti = a.pronti)
    (hcode : ∀ i, (b.sem i).coda = []) (hsonno : b.sonno = []) : Vero b := by
  refine ⟨?_, ?_, hcode, hsonno⟩
  · intro p
    rw [hstato, he]
    exact h.running p
  · intro p
    rw [hstato, hp]
    exact h.pronto p

/-- An assignment that leaves `stato` alone. -/
theorem aggiorna {f : DesProc → DesProc} (h : Vero a)
    (hf : (f (a.dati q)).stato = (a.dati q).stato) : Vero (a.aggiorna q f) := by
  exact h.congr (campo_aggiorna DesProc.stato hf) rfl rfl h.code h.sonno

/-- A semaphore is set where nobody waits. -/
theorem setCount (h : Vero a) (i : Fin MAXSEMS) (n : Int) : Vero (a.setCount i n) := by
  refine h.congr (fun _ => rfl) rfl rfl (fun j => ?_) h.sonno
  rw [coda_setCount]
  exact h.code j

theorem orologio (h : Vero a) : a.orologio = a := by
  have hs : a.sonno = [] := h.sonno
  have hr : ringing (scalaAttesa a.sonno) = [] := by simp [hs, scalaAttesa, ringing]
  have hw : waiting (scalaAttesa a.sonno) = [] := by simp [hs, scalaAttesa, waiting]
  rw [Astratto.orologio, hr, hw]
  show a.setSonno [] a.vive = a
  rw [← hs]
  rfl

/-- A process that is strictly first goes back to the CPU. -/
theorem rimette (h : Vero a) (hl : (a.accoda p).pronti.Nodup) (he : a.esecuzione = some p)
    (hprimo : ∀ q ∈ a.pronti, a.prec p < a.prec q) : Vero (a.accoda p).schedulatore := by
  have hhead : (a.accoda p).pronti = p :: a.pronti := insertByKey_of_lt hprimo
  refine schedulatore hl hhead (fun r hr => ?_) (fun r hr => ?_) (fun r hr => ?_) h.code h.sonno
  · exact Option.some.inj (((h.running r).mp hr).symm.trans he)
  · rw [hhead]
    exact List.mem_cons_of_mem _ ((h.pronto r).mp hr)
  · exact (h.pronto r).mpr hr

/-- A new process is marked as it is placed. -/
theorem attiva {d : DesProc} {n : Int} (h : Vero a) (hd : d.stato = .PRONTO)
    (hfree : (a.dati p).stato = .FREE) :
    Vero (((a.aggiorna p fun _ => d).setProcCount n).accoda p) := by
  have hnuovo : ∀ r, ((((a.aggiorna p fun _ => d).setProcCount n).accoda p).dati r).stato =
      if r = p then .PRONTO else (a.dati r).stato := by
    intro r
    rw [dati_accoda, ← hd]
    exact stato_aggiorna (fun _ => d) r
  refine ⟨?_, ?_, h.code, h.sonno⟩
  · intro r
    rw [hnuovo]
    by_cases hr : r = p
    · rw [if_pos hr, hr]
      refine ⟨fun h => (by cases h), ?_⟩
      intro he
      rw [(h.running p).mpr he] at hfree
      cases hfree
    · rw [if_neg hr]
      exact h.running r
  · intro r
    rw [hnuovo]
    refine Iff.trans ?_ mem_insertByKey.symm
    by_cases hr : r = p
    · rw [if_pos hr]
      exact ⟨fun _ => Or.inl hr, fun _ => rfl⟩
    · rw [if_neg hr, h.pronto r]
      exact ⟨Or.inr, fun h => h.resolve_left hr⟩

/-- A process that ends is neither running nor ready, and is marked as free. -/
theorem termina {n : Int} (h : Vero a) (hI : Inv a) (he : a.esecuzione = some p) (hp : p ≠ idle) :
    Vero ((a.aggiorna p DesProc.libero).setProcCount n).schedulatore := by
  have hlibero : ∀ r, (((a.aggiorna p DesProc.libero).setProcCount n).dati r).stato =
      if r = p then .FREE else (a.dati r).stato := fun r => stato_aggiorna DesProc.libero r
  have hno : p ∉ a.pronti := not_mem_pronti (hI.inCoda_esecuzione he)
  obtain ⟨q, l, hq⟩ := List.exists_cons_of_ne_nil (hI.pronti_ne_nil he hp)
  refine schedulatore hI.unico.pronti_nodup hq (fun r hr => ?_) (fun r hr => ?_) (fun r hr => ?_)
    h.code h.sonno
  · rw [hlibero] at hr
    split at hr
    · cases hr
    · rename_i hne
      exact absurd (Option.some.inj (((h.running r).mp hr).symm.trans he)) hne
  · rw [hlibero] at hr
    split at hr
    · cases hr
    · exact (h.pronto r).mp hr
  · have hmem : r ∈ a.pronti := hq ▸ List.mem_cons_of_mem q hr
    have hne : r ≠ p := fun e => hno (e ▸ hmem)
    rw [hlibero, if_neg hne]
    exact (h.pronto r).mpr hmem

/-- Recomputing the priorities marks all that wait for the CPU as ready. -/
theorem rischedula {n : Int} (h : Vero a) (hI : Inv a) (he : a.esecuzione = some p) : Vero
    ((((a.setRescheduler n).aggiorna p DesProc.addebitato).accoda p).reschedule).schedulatore := by
  let c := ((a.setRescheduler n).aggiorna p DesProc.addebitato).accoda p
  have hnodup : c.pronti.Nodup := hI.accoda_nodup he
  have hmem : ∀ r, r ∈ c.reschedule.pronti ↔ r ∈ c.pronti := fun r =>
    (sortByKey_perm _ c.pronti).mem_iff
  have hstato : ∀ r, (c.dati r).stato = (a.dati r).stato :=
    campo_aggiorna (a := a.setRescheduler n) DesProc.stato rfl
  obtain ⟨q, l, hq⟩ := List.exists_cons_of_ne_nil
    (pronti_reschedule_ne_nil (pronti_accoda_ne_nil (p := p)
      (a := (a.setRescheduler n).aggiorna p DesProc.addebitato)))
  refine schedulatore (c := c.reschedule) ?_ hq (fun r hr => ?_) (fun r hr => ?_)
    (fun r hr => ?_) (fun i => ?_) (sonno_reschedule.trans h.sonno)
  · exact (sortByKey_perm _ c.pronti).nodup_iff.mpr hnodup
  · rw [stato_reschedule hnodup] at hr
    split at hr
    · cases hr
    · rename_i hno
      have hrp : r = p :=
        Option.some.inj (((h.running r).mp ((hstato r).symm.trans hr)).symm.trans he)
      exact absurd (mem_insertByKey.mpr (Or.inl hrp)) hno
  · rw [hmem]
    rw [stato_reschedule hnodup] at hr
    split at hr
    · assumption
    · exact mem_insertByKey.mpr (Or.inr ((h.pronto r).mp ((hstato r).symm.trans hr)))
  · rw [stato_reschedule hnodup, if_pos]
    apply (hmem r).mp
    rw [hq]
    exact List.mem_cons_of_mem q hr
  · rw [sem_reschedule]
    exact h.code i

end Vero

/-- The end of a quantum that does not give the CPU back to the same process. -/
def Scavalca (a : Astratto) : Prop :=
  ∃ p q, a.esecuzione = some p ∧ q ∈ a.pronti ∧ a.prec q ≤ a.prec p

theorem Mossa.vero (h : Mossa a t b) (hI : Inv a) (hV : Vero a) (hblocca : ∀ i p, t ≠ .blocca i p)
    (hdorme : ∀ d x, t ≠ .dorme d x) (hprel : t = .prelazione → ¬ Scavalca a) : Vero b := by
  have hnessuno : ∀ {i : Fin MAXSEMS} {q : Pid} {l : List Pid}, (a.sem i).coda ≠ q :: l := by
    intro i q l hq
    rw [hV.code i] at hq
    cases hq
  cases h with
  | parte he =>
    have hne : a.pronti ≠ [] := by
      rcases hI.idle with h | h
      · rw [he] at h
        cases h
      · exact List.ne_nil_of_mem h
    obtain ⟨q, l, hq⟩ := List.exists_cons_of_ne_nil hne
    refine Vero.schedulatore hI.unico.pronti_nodup hq (fun r hr => ?_) (fun r => (hV.pronto r).mp)
      (fun r hr => ?_) hV.code hV.sonno
    · rw [(hV.running r).mp hr] at he
      cases he
    · exact (hV.pronto r).mpr (hq ▸ List.mem_cons_of_mem q hr)
  | dati p d he hp h => exact hV.aggiorna h.stato
  | chiude he => exact hV.aggiorna rfl
  | attiva p d he hfree hstato htick htotal hbase hmask hgestori => exact hV.attiva hstato hfree
  | termina p he hp => exact hV.termina hI he hp
  | semIni i valore hbusy =>
    refine hV.congr (fun _ => rfl) rfl rfl (fun j => ?_) hV.sonno
    by_cases hj : j = i
    · subst hj
      simp [setSem]
    · simpa [setSem, hj] using hV.code j
  | passa i hc => exact hV.setCount i _
  | blocca i p he hp hc => exact absurd rfl (hblocca i p)
  | libera i hc => exact hV.setCount i _
  | sveglia i p q l he hc hq hprec => exact absurd hq hnessuno
  | cede i p q l he hc hq hprec => exact absurd hq hnessuno
  | dorme d x he hp hx => exact absurd rfl (hdorme d x)
  | orologio =>
    rw [hV.orologio]
    exact hV
  | conta p he => exact hV.aggiorna rfl
  | prosegue p he hr ht => exact hV.congr (fun _ => rfl) rfl rfl hV.code hV.sonno
  | prelazione p he hr ht =>
    have hV' : Vero (a.setRescheduler (int32 (a.rescheduler + 1))) :=
      hV.congr (fun _ => rfl) rfl rfl hV.code hV.sonno
    apply hV'.rimette (hI.accoda_nodup he) he
    intro q hq
    by_contra hlt
    exact hprel rfl ⟨p, q, he, hq, not_lt.mp hlt⟩
  | rischedula p he hr => exact hV.rischedula hI he

end Pitos
