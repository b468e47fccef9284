import Mathlib.Algebra.Order.BigOperators.Group.Finset
import Pitos.Abstract.Places

/-!
# What the operations do to the places

`inCoda a p` counts how often `p` stands in a list and `presenze a p` adds the CPU. The lemmas
here say what each operation of the abstract kernel does to these counts and to the set of
live processes; `Pitos.Abstract.Invariant` adds them up move by move.
-/

namespace Pitos

open Lib

namespace Astratto

/-- How often `p` stands in a list. -/
def inCoda (a : Astratto) (p : Pid) : Nat :=
  a.pronti.count p + ∑ i, (a.sem i).coda.count p + (a.sonno.map fun r => r.1.2).count p

/-- How often `p` is found anywhere. -/
def presenze (a : Astratto) (p : Pid) : Nat :=
  a.esecuzione.toList.count p + a.inCoda p

/-- The live processes. -/
def vivi (a : Astratto) : Finset Pid := Finset.univ.filter fun p => (a.dati p).stato ≠ .FREE

variable {a : Astratto} {p q : Pid} {i j : Fin MAXSEMS} {l : List Pid}

@[simp] theorem count_some_toList (p q : Pid) :
    (some p).toList.count q = if p = q then 1 else 0 := by
  simp [List.count_singleton]

@[simp] theorem mem_vivi : p ∈ a.vivi ↔ (a.dati p).stato ≠ .FREE := by simp [vivi]

/-! ## The CPU -/

@[simp] theorem esecuzione_aggiorna (f : DesProc → DesProc) :
    (a.aggiorna p f).esecuzione = a.esecuzione := rfl

@[simp] theorem esecuzione_accoda : (a.accoda p).esecuzione = a.esecuzione := rfl

@[simp] theorem esecuzione_setSem (x : Semaforo) :
    (a.setSem i x).esecuzione = a.esecuzione := rfl

@[simp] theorem esecuzione_setCount (c : Int) :
    (a.setCount i c).esecuzione = a.esecuzione := rfl

@[simp] theorem esecuzione_setCoda : (a.setCoda i l).esecuzione = a.esecuzione := rfl

@[simp] theorem esecuzione_setProcCount (n : Int) :
    (a.setProcCount n).esecuzione = a.esecuzione := rfl

@[simp] theorem esecuzione_setRescheduler (n : Int) :
    (a.setRescheduler n).esecuzione = a.esecuzione := rfl

@[simp] theorem esecuzione_setDati (d : Pid → DesProc) :
    (a.setDati d).esecuzione = a.esecuzione := rfl

@[simp] theorem esecuzione_setEsecuzione (e : Option Pid) :
    (a.setEsecuzione e).esecuzione = e := rfl

/-! ## What the operations do to the places -/

@[simp] theorem dati_aggiorna (f : DesProc → DesProc) :
    (a.aggiorna p f).dati = Function.update a.dati p (f (a.dati p)) := rfl

/-- What an assignment to one process leaves as it is there, it leaves everywhere. -/
theorem campo_aggiorna {β : Type*} (g : DesProc → β) {f : DesProc → DesProc}
    (hf : g (f (a.dati p)) = g (a.dati p)) (q : Pid) :
    g ((a.aggiorna p f).dati q) = g (a.dati q) := by
  rw [dati_aggiorna]
  by_cases hq : q = p
  · rw [hq, Function.update_self, hf]
  · rw [Function.update_of_ne hq]

theorem stato_aggiorna (f : DesProc → DesProc) (q : Pid) : ((a.aggiorna p f).dati q).stato =
    if q = p then (f (a.dati p)).stato else (a.dati q).stato := by
  rw [dati_aggiorna]
  by_cases hq : q = p
  · rw [hq, Function.update_self, if_pos rfl]
  · rw [Function.update_of_ne hq, if_neg hq]

/-- An assignment to a process that lives as before. -/
theorem vivi_aggiorna {f : DesProc → DesProc}
    (hf : (f (a.dati p)).stato = .FREE ↔ (a.dati p).stato = .FREE) :
    (a.aggiorna p f).vivi = a.vivi := by
  ext q
  rw [mem_vivi, mem_vivi, stato_aggiorna]
  split
  · rename_i hq
    rw [hq]
    exact not_congr hf
  · rfl

@[simp] theorem inCoda_aggiorna (f : DesProc → DesProc) :
    (a.aggiorna p f).inCoda q = a.inCoda q := rfl

@[simp] theorem inCoda_setProcCount (n : Int) : (a.setProcCount n).inCoda q = a.inCoda q := rfl

@[simp] theorem inCoda_setRescheduler (n : Int) :
    (a.setRescheduler n).inCoda q = a.inCoda q := rfl

@[simp] theorem inCoda_setEsecuzione (e : Option Pid) :
    (a.setEsecuzione e).inCoda q = a.inCoda q := rfl

@[simp] theorem inCoda_setDati (d : Pid → DesProc) : (a.setDati d).inCoda q = a.inCoda q := rfl

@[simp] theorem dati_accoda : (a.accoda p).dati = a.dati := rfl

@[simp] theorem inCoda_accoda :
    (a.accoda p).inCoda q = a.inCoda q + if p = q then 1 else 0 := by
  simp only [inCoda, accoda, count_insertByKey]
  omega

theorem pronti_accoda_ne_nil : (a.accoda p).pronti ≠ [] := insertByKey_ne_nil

@[simp] theorem dati_setSem (x : Semaforo) : (a.setSem i x).dati = a.dati := rfl

/-- Replacing one semaphore queue. -/
theorem inCoda_setSem (x : Semaforo) :
    (a.setSem i x).inCoda q + (a.sem i).coda.count q = a.inCoda q + x.coda.count q := by
  have hupd : (fun j => ((Function.update a.sem i x) j).coda.count q) =
      Function.update (fun j => (a.sem j).coda.count q) i (x.coda.count q) := by
    funext j
    by_cases hj : j = i
    · subst hj
      simp
    · simp [hj]
  have hsum : ∑ j, ((Function.update a.sem i x) j).coda.count q + (a.sem i).coda.count q =
      ∑ j, (a.sem j).coda.count q + x.coda.count q := by
    rw [hupd, Finset.sum_update_of_mem (Finset.mem_univ i),
      Finset.sum_eq_add_sum_sdiff_singleton_of_mem (Finset.mem_univ i)
        (fun j => (a.sem j).coda.count q)]
    omega
  simp only [inCoda, setSem]
  omega

@[simp] theorem inCoda_setCount (c : Int) : (a.setCount i c).inCoda q = a.inCoda q := by
  have h : (a.setCount i c).inCoda q + (a.sem i).coda.count q =
      a.inCoda q + (a.sem i).coda.count q := inCoda_setSem _
  omega

theorem inCoda_setCoda :
    (a.setCoda i l).inCoda q + (a.sem i).coda.count q = a.inCoda q + l.count q :=
  inCoda_setSem _

@[simp] theorem dati_setCount (c : Int) : (a.setCount i c).dati = a.dati := rfl

@[simp] theorem dati_setCoda : (a.setCoda i l).dati = a.dati := rfl

@[simp] theorem coda_setCount (c : Int) : ((a.setCount i c).sem j).coda = (a.sem j).coda := by
  by_cases hj : j = i
  · subst hj
    simp [setCount, setSem]
  · simp [setCount, setSem, hj]

@[simp] theorem coda_setCoda :
    ((a.setCoda i l).sem j).coda = if j = i then l else (a.sem j).coda := by
  by_cases hj : j = i
  · subst hj
    simp [setCoda, setSem]
  · simp [setCoda, setSem, hj]

@[simp] theorem sem_setCount_self (c : Int) : ((a.setCount i c).sem i).coda = (a.sem i).coda := by
  simp [setCount, setSem]

@[simp] theorem inCoda_saldo : a.saldo.inCoda q = a.inCoda q := by
  unfold saldo
  split <;> rfl

/-- The scheduler's charge changes the times only. -/
theorem campo_saldo {β : Type*} (g : DesProc → β) (hg : ∀ d, g (DesProc.addebitato d) = g d)
    (q : Pid) : g (a.saldo.dati q) = g (a.dati q) := by
  unfold saldo
  split
  · rfl
  · exact campo_aggiorna g (hg _) q

theorem stato_saldo : (a.saldo.dati q).stato = (a.dati q).stato :=
  campo_saldo DesProc.stato (fun _ => rfl) q

/-- `schedulatore` takes the first ready process out of the list. -/
theorem inCoda_schedulatore (h : a.pronti = p :: l) :
    a.schedulatore.inCoda q + (if p = q then 1 else 0) = a.inCoda q := by
  have hs : a.saldo.sem = a.sem := by
    unfold saldo
    split <;> rfl
  have ht : a.saldo.sonno = a.sonno := by
    unfold saldo
    split <;> rfl
  simp only [schedulatore, h, inCoda, aggiorna, setEsecuzione, setPronti, hs, ht,
    List.count_cons, beq_iff_eq]
  omega

theorem esecuzione_schedulatore (h : a.pronti = p :: l) : a.schedulatore.esecuzione = some p := by
  simp [schedulatore, h, setEsecuzione, setPronti]

theorem pronti_schedulatore (h : a.pronti = p :: l) : a.schedulatore.pronti = l := by
  simp [schedulatore, h, setEsecuzione, setPronti]

@[simp] theorem sonno_schedulatore : a.schedulatore.sonno = a.sonno := by
  unfold schedulatore saldo
  split <;> [rfl; (split <;> rfl)]

@[simp] theorem vive_schedulatore : a.schedulatore.vive = a.vive := by
  unfold schedulatore saldo
  split <;> [rfl; (split <;> rfl)]

@[simp] theorem procCount_schedulatore : a.schedulatore.procCount = a.procCount := by
  unfold schedulatore saldo
  split <;> [rfl; (split <;> rfl)]

@[simp] theorem sem_schedulatore : a.schedulatore.sem = a.sem := by
  unfold schedulatore saldo
  split <;> [rfl; (split <;> rfl)]

@[simp] theorem rescheduler_schedulatore : a.schedulatore.rescheduler = a.rescheduler := by
  unfold schedulatore saldo
  split <;> [rfl; (split <;> rfl)]

theorem vivi_schedulatore (h : ∀ p ∈ a.pronti, p ∈ a.vivi) : a.schedulatore.vivi = a.vivi := by
  cases hp : a.pronti with
  | nil => simp [schedulatore, hp]
  | cons p l =>
    ext q
    have hp' := mem_vivi.mp (h p (by simp [hp]))
    simp only [mem_vivi, schedulatore, hp, setEsecuzione, setPronti, dati_aggiorna]
    by_cases hq : q = p
    · subst hq
      simp [hp']
    · simp [hq, stato_saldo]

/-- The CPU and the ready list together keep their processes. -/
theorem presenze_schedulatore (h : a.pronti ≠ []) :
    a.schedulatore.presenze q = a.inCoda q := by
  obtain ⟨p, l, hp⟩ := List.exists_cons_of_ne_nil h
  have h1 := inCoda_schedulatore (q := q) hp
  simp only [presenze, esecuzione_schedulatore hp, count_some_toList]
  omega

theorem presenze_pos_of_pronti (h : p ∈ a.pronti) : 1 ≤ a.inCoda p := by
  have := List.count_pos_iff.mpr h
  unfold inCoda
  omega

theorem presenze_pos_of_coda (h : p ∈ (a.sem i).coda) : 1 ≤ a.inCoda p := by
  have hc := List.count_pos_iff.mpr h
  have hs : (a.sem i).coda.count p ≤ ∑ j, (a.sem j).coda.count p :=
    Finset.single_le_sum (f := fun j => (a.sem j).coda.count p) (fun _ _ => Nat.zero_le _)
      (Finset.mem_univ i)
  unfold inCoda
  omega

theorem presenze_pos_of_sonno {r : (Addr × Pid) × Int} (h : r ∈ a.sonno) :
    1 ≤ a.inCoda r.1.2 := by
  have := List.count_pos_iff.mpr (List.mem_map_of_mem (f := fun r => r.1.2) h)
  unfold inCoda
  omega

theorem inserisciAttesa_perm (d : Int) (x : Addr × Pid) (l : List ((Addr × Pid) × Int)) :
    ((inserisciAttesa d x l).map Prod.fst).Perm (x :: l.map Prod.fst) := by
  induction l generalizing d with
  | nil => exact List.Perm.refl _
  | cons r l ih =>
    obtain ⟨y, e⟩ := r
    unfold inserisciAttesa
    split
    · exact ((ih (int32 (d - e))).cons y).trans (List.Perm.swap x y _)
    · exact List.Perm.refl _

@[simp] theorem scalaAttesa_fst (l : List ((Addr × Pid) × Int)) :
    (scalaAttesa l).map Prod.fst = l.map Prod.fst := by
  cases l <;> rfl

theorem inCoda_addormenta (d : Int) (x : Addr × Pid) :
    (a.addormenta d x).inCoda q = a.inCoda q + if x.2 = q then 1 else 0 := by
  have h := ((inserisciAttesa_perm d x a.sonno).map Prod.snd).count_eq q
  simp only [List.map_map, List.map_cons, List.count_cons, beq_iff_eq] at h
  simp only [inCoda, addormenta, setSonno]
  simp only [Function.comp_def] at h
  omega

/-! ## The clock -/

@[simp] theorem esecuzione_sveglia (x : Addr × Pid) :
    (a.sveglia x).esecuzione = a.esecuzione := rfl

@[simp] theorem inCoda_sveglia (x : Addr × Pid) :
    (a.sveglia x).inCoda q = a.inCoda q + if x.2 = q then 1 else 0 :=
  inCoda_accoda

/-- A wake-up changes the states, the ready list and the heap, and nothing else. -/
theorem svegliaTutti_eq (l : List ((Addr × Pid) × Int)) (a : Astratto) :
    a.svegliaTutti l =
      { a with
        dati := fun p => if p ∈ l.map (fun r => r.1.2) then (a.dati p).pronto else a.dati p
        pronti := fillByKey a.prec a.pronti (l.map fun r => r.1.2)
        vive := a.vive.diff (l.map fun r => r.1.1) } := by
  induction l generalizing a with
  | nil => simp [svegliaTutti]
  | cons r l ih =>
    have hprec : (a.sveglia r.1).prec = a.prec := by
      funext p
      by_cases hp : p = r.1.2
      · subst hp
        simp [prec, sveglia, setSonno]
      · simp [prec, sveglia, setSonno, hp]
    have hpronti : (a.sveglia r.1).pronti = insertByKey a.prec r.1.2 a.pronti :=
      insertByKey_congr fun x _ => congrFun hprec x
    rw [show a.svegliaTutti (r :: l) = (a.sveglia r.1).svegliaTutti l from rfl, ih, hprec, hpronti]
    simp only [sveglia, setSonno, accoda, aggiorna, List.map_cons, fillByKey_cons, List.diff_cons,
      List.mem_cons]
    congr 1
    funext p
    by_cases hr : p = r.1.2
    · subst hr
      by_cases hl : r.1.2 ∈ l.map (fun r => r.1.2) <;> simp [hl, DesProc.pronto]
    · by_cases hl : p ∈ l.map (fun r => r.1.2) <;> simp [hl, hr]

theorem inCoda_svegliaTutti (l : List ((Addr × Pid) × Int)) :
    (a.svegliaTutti l).inCoda q = a.inCoda q + (l.map fun r => r.1.2).count q := by
  induction l generalizing a with
  | nil => simp [svegliaTutti]
  | cons r l ih =>
    have h : (a.svegliaTutti (r :: l)).inCoda q = ((a.sveglia r.1).svegliaTutti l).inCoda q := rfl
    rw [h, ih, inCoda_sveglia, List.map_cons, List.count_cons]
    simp only [beq_iff_eq]
    omega

theorem append_diff_left {α : Type*} [BEq α] [LawfulBEq α] (l m : List α) :
    (l ++ m).diff l = m := by
  induction l with
  | nil => rfl
  | cons x l ih => rw [List.cons_append, List.diff_cons, List.erase_cons_head, ih]

theorem ringing_append_waiting {α : Type*} (l : List (α × Int)) : ringing l ++ waiting l = l :=
  List.takeWhile_append_dropWhile

theorem scalaAttesa_proc (l : List ((Addr × Pid) × Int)) :
    (scalaAttesa l).map (fun r => r.1.2) = l.map fun r => r.1.2 := by
  cases l <;> rfl

/-- A tick moves the processes whose time has come from the timer queue to the ready list. -/
@[simp] theorem inCoda_orologio : a.orologio.inCoda q = a.inCoda q := by
  have hcount := congrArg (List.count q) (scalaAttesa_proc a.sonno)
  rw [← ringing_append_waiting (scalaAttesa a.sonno), List.map_append, List.count_append] at hcount
  rw [orologio, inCoda_svegliaTutti]
  simp only [inCoda, setSonno]
  omega

@[simp] theorem esecuzione_orologio : a.orologio.esecuzione = a.esecuzione := by
  rw [orologio, svegliaTutti_eq]
  rfl

theorem vivi_orologio (h : ∀ r ∈ a.sonno, r.1.2 ∈ a.vivi) : a.orologio.vivi = a.vivi := by
  ext q
  rw [orologio, svegliaTutti_eq]
  simp only [mem_vivi, setSonno]
  split
  · rename_i hq
    have hq' : q ∈ (scalaAttesa a.sonno).map (fun r => r.1.2) := by
      rw [← ringing_append_waiting (scalaAttesa a.sonno), List.map_append]
      exact List.mem_append_left _ hq
    rw [scalaAttesa_proc] at hq'
    obtain ⟨r, hr, rfl⟩ := List.mem_map.mp hq'
    simpa using mem_vivi.mp (h r hr)
  · rfl

/-! ## New priorities -/

/-- `reschedule` changes the descriptors of the ready processes only. -/
theorem foldl_ricalcola (l : List Pid) (hl : l.Nodup) (a : Astratto) :
    (l.foldl ricalcola a) =
      { a with dati := fun p => if p ∈ l then (a.ricalcola p).dati p else a.dati p } := by
  induction l generalizing a with
  | nil => simp
  | cons r l ih =>
    obtain ⟨hr, hl⟩ := List.nodup_cons.mp hl
    rw [List.foldl_cons, ih hl]
    simp only [ricalcola, aggiorna, Function.update_self, List.mem_cons]
    congr 1
    funext p
    by_cases hp : p ∈ l
    · have hpr : p ≠ r := fun e => hr (e ▸ hp)
      simp [hp, hpr]
    · by_cases hpr : p = r
      · subst hpr
        simp [hp]
      · simp [hp, hpr]

theorem dati_reschedule (hl : a.pronti.Nodup) :
    a.reschedule.dati p = if p ∈ a.pronti then (a.ricalcola p).dati p else a.dati p := by
  simp only [reschedule, setPronti, foldl_ricalcola _ hl]

@[simp] theorem inCoda_reschedule (hl : a.pronti.Nodup) :
    a.reschedule.inCoda q = a.inCoda q := by
  simp only [inCoda, reschedule, setPronti, foldl_ricalcola _ hl, (sortByKey_perm _ a.pronti).count_eq]

theorem vivi_reschedule (hl : a.pronti.Nodup) (h : ∀ p ∈ a.pronti, p ∈ a.vivi) :
    a.reschedule.vivi = a.vivi := by
  ext q
  rw [mem_vivi, dati_reschedule hl, mem_vivi]
  split
  · rename_i hq
    simpa [ricalcola] using mem_vivi.mp (h q hq)
  · rfl

theorem pronti_reschedule_ne_nil (h : a.pronti ≠ []) : a.reschedule.pronti ≠ [] := fun e => by
  have := (sortByKey_perm (a.pronti.foldl ricalcola a).prec a.pronti).length_eq
  rw [show sortByKey _ a.pronti = [] from e] at this
  exact h (List.length_eq_zero_iff.mp this.symm)

/-- Outside the descriptors and the order of the ready list `reschedule` changes nothing. -/
theorem reschedule_eq (a : Astratto) :
    ∃ d l, a.reschedule = (a.setDati d).setPronti l := by
  have h : ∀ l : List Pid, ∀ a : Astratto, ∃ d, l.foldl ricalcola a = a.setDati d := by
    intro l
    induction l with
    | nil => exact fun a => ⟨a.dati, rfl⟩
    | cons p l ih =>
      intro a
      obtain ⟨d, hd⟩ := ih (a.ricalcola p)
      exact ⟨d, hd⟩
  obtain ⟨d, hd⟩ := h a.pronti a
  exact ⟨d, _, congrArg (fun b => b.setPronti (sortByKey b.prec a.pronti)) hd⟩

@[simp] theorem sonno_reschedule : a.reschedule.sonno = a.sonno := by
  obtain ⟨d, l, h⟩ := a.reschedule_eq
  rw [h]
  rfl

@[simp] theorem vive_reschedule : a.reschedule.vive = a.vive := by
  obtain ⟨d, l, h⟩ := a.reschedule_eq
  rw [h]
  rfl

@[simp] theorem procCount_reschedule : a.reschedule.procCount = a.procCount := by
  obtain ⟨d, l, h⟩ := a.reschedule_eq
  rw [h]
  rfl

@[simp] theorem sem_reschedule : a.reschedule.sem = a.sem := by
  obtain ⟨d, l, h⟩ := a.reschedule_eq
  rw [h]
  rfl

@[simp] theorem esecuzione_reschedule : a.reschedule.esecuzione = a.esecuzione := by
  obtain ⟨d, l, h⟩ := a.reschedule_eq
  rw [h]
  rfl

end Astratto

/-! ## Lists that do not meet -/

section Separati

open Astratto

/-- No process stands in two lists, or twice in one. -/
def Separati (a : Astratto) : Prop := ∀ p, a.inCoda p ≤ 1

variable {a : Astratto} {p : Pid} {i j : Fin MAXSEMS}

theorem not_mem_pronti (h : a.inCoda p = 0) : p ∉ a.pronti := fun hp => by
  have := presenze_pos_of_pronti hp
  omega

theorem not_mem_coda (h : a.inCoda p = 0) : p ∉ (a.sem i).coda := fun hp => by
  have := presenze_pos_of_coda hp
  omega

theorem Separati.pronti_coda (h : Separati a) (hp : p ∈ a.pronti) : p ∉ (a.sem i).coda := by
  intro hi
  have h1 := List.count_pos_iff.mpr hp
  have h2 := List.count_pos_iff.mpr hi
  have h3 := Finset.single_le_sum (f := fun j => (a.sem j).coda.count p)
    (fun _ _ => Nat.zero_le _) (Finset.mem_univ i)
  have := h p
  unfold inCoda at this
  omega

theorem Separati.coda_coda (h : Separati a) (hij : i ≠ j) (hp : p ∈ (a.sem i).coda) :
    p ∉ (a.sem j).coda := by
  intro hj
  have h1 := List.count_pos_iff.mpr hp
  have h2 := List.count_pos_iff.mpr hj
  have h3 := Finset.add_le_sum (f := fun j => (a.sem j).coda.count p) (s := Finset.univ)
    (fun _ _ => Nat.zero_le _) (Finset.mem_univ i) (Finset.mem_univ j) hij
  have := h p
  unfold inCoda at this
  omega

/-- Moving a process from the front of a queue keeps the lists apart. -/
theorem Separati.setCoda {l : List Pid} {q : Pid} (h : Separati a)
    (hl : (a.sem i).coda = q :: l) :
    Separati (a.setCoda i l) ∧ (a.setCoda i l).inCoda q = 0 := by
  have hc : ∀ p, (a.setCoda i l).inCoda p + (if q = p then 1 else 0) = a.inCoda p := by
    intro p
    have hp := inCoda_setCoda (a := a) (i := i) (l := l) (q := p)
    simp only [hl, List.count_cons, beq_iff_eq] at hp
    omega
  constructor
  · intro p
    have := hc p
    have := h p
    omega
  · have h1 := hc q
    have := h q
    rw [if_pos rfl] at h1
    omega

theorem Separati.accoda (h : Separati a) (hp : a.inCoda p = 0) : Separati (a.accoda p) := by
  intro q
  have := h q
  rw [inCoda_accoda]
  split
  · rename_i hpq
    subst hpq
    omega
  · omega

end Separati

end Pitos
