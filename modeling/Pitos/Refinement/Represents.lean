import Mathlib.Data.Fintype.Card
import Pitos.Abstract.Invariant

/-!
# Kernel states represent abstract states

`Rappr s a`: the pointers of `s` thread the lists of `a`. The lemmas of this module are about
the pieces that the kernel's entries are made of: insertion in a process queue, removal of its
first element, the scheduler and the new priorities. Each says that the code computes the
operation of the same name on lists, and in particular that its loops end. What they need is
that a process is in one list at most (`Separati`), and that one to be inserted is in none.
-/

namespace Pitos

open Lib

structure RapprSem (des : DesMem) (x : DesSem) (y : Semaforo) : Prop where
  coda : Linked (successore des) x.coda y.coda
  count : x.count = y.count
  busy : x.busy = y.busy

structure Rappr (s : Kernel) (a : Astratto) : Prop where
  dati : ∀ p, (s.des (some p)).slegato = a.dati p
  esecuzione : s.esecuzione = a.esecuzione
  pronti : Linked (successore s.des) s.pronti a.pronti
  sem : ∀ i, RapprSem s.des (s.dessem i) (a.sem i)
  timer : Linked s.pric s.desTimer (a.sonno.map fun r => r.1.1)
  proc : ∀ r ∈ a.sonno, (s.ric r.1.1).proc = some r.1.2
  dattesa : ∀ r ∈ a.sonno, (s.ric r.1.1).dattesa = r.2
  vive : s.vive = a.vive
  procCount : s.procCount = a.procCount
  rescheduler : s.rescheduler = a.rescheduler

/-! ## Assignments to `next` -/

@[simp] theorem slegato_setNext (des : DesMem) (p n q : DesPtr) :
    (setNext des p n q).slegato = (des q).slegato := by
  by_cases hq : q = p
  · subst hq
    simp [setNext, DesProc.slegato]
  · simp [setNext, hq]

theorem setNext_of_ne {des : DesMem} {p n q : DesPtr} (h : q ≠ p) : setNext des p n q = des q := by
  simp [setNext, h]

theorem successore_setNext (des : DesMem) (p q : Pid) (n : DesPtr) :
    successore (setNext des (some p) n) q = if q = p then n else successore des q := by
  by_cases hq : q = p
  · subst hq
    simp [successore, setNext]
  · simp [successore, setNext, hq]

/-! ## The queue operations -/

/-- A queue holds every descriptor once at most. -/
theorem length_of_linked {next : Pid → DesPtr} {head : DesPtr} {l : List Pid}
    (h : Linked next head l) : l.length < MAXPROCS + 1 := by
  have := h.nodup.length_le_card
  simp only [Fintype.card_fin] at this
  omega

section Code

variable {des : DesMem} {coda : DesPtr} {l : List Pid} {p q : Pid}

/-- The loop and the two assignments of `inserimento_coda` put `p` where `insertByKey` puts
it. No other descriptor outside the queue is written. -/
theorem inserimentoCoda_eq (h : Linked (successore des) coda l) (hp : p ∉ l) :
    ∃ des' coda', inserimentoCoda des coda (some p) = some (des', coda') ∧
      Linked (successore des') coda' (insertByKey (fun r => (des (some r)).prec) p l) ∧
      (∀ q, (des' q).slegato = (des q).slegato) ∧
      ∀ q : Pid, q ≠ p → q ∉ l → successore des' q = successore des q := by
  have hwalk := walk_eq (passes (fun r : Pid => (des (some r)).prec) (des (some p)).prec) h
    (length_of_linked h) () none
  have hcut := cut_passes (fun r : Pid => (des (some r)).prec) p l
  have happ := cut_append (passes (fun r : Pid => (des (some r)).prec) (des (some p)).prec) () l
  revert hwalk hcut happ
  generalize cut (passes (fun r : Pid => (des (some r)).prec) (des (some p)).prec) () l = c
  obtain ⟨a, u, b⟩ := c
  intro hwalk hcut happ
  simp only [Option.or_none] at hwalk hcut happ
  subst happ
  have hlink := Linked.splice h hp
  have hwalk' : walk (passes (fun r : Pid => (des (some r)).prec) (des (some p)).prec)
      (fun r => (des (some r)).next) (MAXPROCS + 1) () none coda =
      some (u, a.getLast?, b.head?) := hwalk
  rw [← hcut]
  cases ha : a.getLast? with
  | none =>
    have ha' : a = [] := List.getLast?_eq_none_iff.mp ha
    have hnext : successore (setNext des (some p) b.head?) =
        Lib.splice (successore des) a.getLast? p b.head? := by
      funext x
      simp [successore_setNext, Lib.splice, ha]
    refine ⟨setNext des (some p) b.head?, some p, ?_, ?_, fun q => slegato_setNext _ _ _ _,
      fun q hq hql => ?_⟩
    · simp only [inserimentoCoda, hwalk', ha, reduceCtorEq, if_false]
    · rw [hnext]
      simpa [ha'] using hlink
    · simp [successore_setNext, hq]
  | some prec =>
    have ha' : a ≠ [] := by
      rintro rfl
      simp at ha
    have hnext : successore (setNext (setNext des (some p) b.head?) (some prec) (some p)) =
        Lib.splice (successore des) a.getLast? p b.head? := by
      funext x
      simp [successore_setNext, Lib.splice, ha]
    refine ⟨setNext (setNext des (some p) b.head?) (some prec) (some p), coda, ?_, ?_,
      fun q => by simp, fun q hq hql => ?_⟩
    · simp only [inserimentoCoda, hwalk', ha, reduceCtorEq, if_false]
    · rw [hnext]
      simpa [ha'] using hlink
    · have hprec : q ≠ prec := fun e =>
        hql (e ▸ List.mem_append_left _ (List.mem_of_getLast? ha))
      simp [successore_setNext, hq, hprec]

end Code

/-! ## The operations on represented states -/

namespace Rappr

variable {s : Kernel} {a : Astratto} {p q : Pid} {i : Fin MAXSEMS} {l : List Pid}

theorem prec (hR : Rappr s a) (p : Pid) : (s.des (some p)).prec = a.prec p := by
  have h := congrArg DesProc.prec (hR.dati p)
  exact h

theorem stato (hR : Rappr s a) (p : Pid) : (s.des (some p)).stato = (a.dati p).stato := by
  have h := congrArg DesProc.stato (hR.dati p)
  exact h

theorem tick (hR : Rappr s a) (p : Pid) : (s.des (some p)).tick = (a.dati p).tick := by
  have h := congrArg DesProc.tick (hR.dati p)
  exact h

theorem sigMask (hR : Rappr s a) (p : Pid) : (s.des (some p)).sigMask = (a.dati p).sigMask := by
  have h := congrArg DesProc.sigMask (hR.dati p)
  exact h

theorem coda (hR : Rappr s a) (i : Fin MAXSEMS) :
    Linked (successore s.des) (s.dessem i).coda (a.sem i).coda := (hR.sem i).coda

theorem count (hR : Rappr s a) (i : Fin MAXSEMS) : (s.dessem i).count = (a.sem i).count :=
  (hR.sem i).count

theorem busy (hR : Rappr s a) (i : Fin MAXSEMS) : (s.dessem i).busy = (a.sem i).busy :=
  (hR.sem i).busy

/-- An assignment to fields other than `next`. -/
theorem aggiorna (hR : Rappr s a) (p : Pid) (f : DesProc → DesProc)
    (hf : ∀ d, (f d).slegato = f d.slegato := by intro d; rfl)
    (hnext : ∀ d, (f d).next = d.next := by intro d; rfl) :
    Rappr (s.aggiorna (some p) f) (a.aggiorna p f) := by
  have hlink : successore (s.aggiorna (some p) f).des = successore s.des := by
    funext q
    by_cases hq : q = p
    · subst hq
      simp [successore, Kernel.aggiorna, hnext]
    · simp [successore, Kernel.aggiorna, hq]
  refine ⟨fun q => ?_, hR.esecuzione, by rw [hlink]; exact hR.pronti,
    fun i => ⟨by rw [hlink]; exact hR.coda i, hR.count i, hR.busy i⟩, hR.timer, hR.proc,
    hR.dattesa, hR.vive, hR.procCount, hR.rescheduler⟩
  by_cases hq : q = p
  · subst hq
    simp [Kernel.aggiorna, hf, hR.dati]
  · simp [Kernel.aggiorna, hq, hR.dati]

/-- The memory, the screen and the keyboard are not represented. -/
theorem congr {t : Kernel} (hR : Rappr s a) (hdes : t.des = s.des := by rfl)
    (he : t.esecuzione = s.esecuzione := by rfl) (hpronti : t.pronti = s.pronti := by rfl)
    (hsem : t.dessem = s.dessem := by rfl) (hric : t.ric = s.ric := by rfl)
    (htimer : t.desTimer = s.desTimer := by rfl) (hvive : t.vive = s.vive := by rfl)
    (hcount : t.procCount = s.procCount := by rfl)
    (hresc : t.rescheduler = s.rescheduler := by rfl) : Rappr t a where
  dati := hdes ▸ hR.dati
  esecuzione := he.trans hR.esecuzione
  pronti := by
    rw [hdes, hpronti]
    exact hR.pronti
  sem := by
    rw [hdes, hsem]
    exact hR.sem
  timer := by
    have hpric : t.pric = s.pric := congrArg (fun ric a => (ric a).pric) hric
    rw [htimer, hpric]
    exact hR.timer
  proc := hric ▸ hR.proc
  dattesa := hric ▸ hR.dattesa
  vive := hvive.trans hR.vive
  procCount := hcount.trans hR.procCount
  rescheduler := hresc.trans hR.rescheduler

theorem setMem (hR : Rappr s a) (m : Mem) : Rappr { s with mem := m } a := hR.congr

/-- A descriptor that is in no list may be written as a whole. -/
theorem riscrivi (hR : Rappr s a) (hp : a.inCoda p = 0) (d : DesProc) :
    Rappr { s with des := Function.update s.des (some p) d } (a.aggiorna p fun _ => d.slegato) := by
  have hframe : ∀ m : List Pid, p ∉ m → ∀ q ∈ m,
      successore (Function.update s.des (some p) d) q = successore s.des q := by
    intro m hm q hq
    have hne : q ≠ p := fun e => hm (e ▸ hq)
    simp [successore, hne]
  refine ⟨fun q => ?_, hR.esecuzione, hR.pronti.congr (hframe _ (not_mem_pronti hp)),
    fun i => ⟨(hR.coda i).congr (hframe _ (not_mem_coda hp)), hR.count i, hR.busy i⟩,
    hR.timer, hR.proc, hR.dattesa, hR.vive, hR.procCount, hR.rescheduler⟩
  by_cases hq : q = p
  · subst hq
    simp
  · simp [hq, hR.dati]

theorem setEsecuzione (hR : Rappr s a) (e : DesPtr) :
    Rappr { s with esecuzione := e } (a.setEsecuzione e) :=
  ⟨hR.dati, rfl, hR.pronti, hR.sem, hR.timer, hR.proc, hR.dattesa, hR.vive, hR.procCount,
    hR.rescheduler⟩

theorem setRescheduler (hR : Rappr s a) (n : Int) :
    Rappr { s with rescheduler := n } (a.setRescheduler n) :=
  ⟨hR.dati, hR.esecuzione, hR.pronti, hR.sem, hR.timer, hR.proc, hR.dattesa, hR.vive,
    hR.procCount, rfl⟩

theorem setProcCount (hR : Rappr s a) (n : Int) :
    Rappr { s with procCount := n } (a.setProcCount n) :=
  ⟨hR.dati, hR.esecuzione, hR.pronti, hR.sem, hR.timer, hR.proc, hR.dattesa, hR.vive, rfl,
    hR.rescheduler⟩

theorem inserisciPronti (hR : Rappr s a) (hS : Separati a) (hp : a.inCoda p = 0) :
    ∃ s', s.inserisciPronti (some p) = .ok s' ∧ Rappr s' (a.accoda p) := by
  obtain ⟨des', coda', heq, hlink, hdati, hframe⟩ :=
    inserimentoCoda_eq hR.pronti (not_mem_pronti hp)
  refine ⟨{ s with des := des', pronti := coda' }, by simp only [Kernel.inserisciPronti, heq],
    ⟨fun q => (hdati q).trans (hR.dati q), hR.esecuzione, ?_,
      fun i => ⟨?_, hR.count i, hR.busy i⟩, hR.timer, hR.proc, hR.dattesa, hR.vive, hR.procCount,
      hR.rescheduler⟩⟩
  · rw [insertByKey_congr fun x _ => hR.prec x] at hlink
    exact hlink
  · refine (hR.coda i).congr fun q hq => hframe q ?_ fun hq' => hS.pronti_coda hq' hq
    rintro rfl
    exact not_mem_coda hp hq

/-- A change of one semaphore. -/
theorem update_sem {des : DesMem} {f : Fin MAXSEMS → DesSem} {g : Fin MAXSEMS → Semaforo}
    {x : DesSem} {y : Semaforo} (hi : RapprSem des x y)
    (h : ∀ j, j ≠ i → RapprSem des (f j) (g j)) :
    ∀ j, RapprSem des (Function.update f i x j) (Function.update g i y j) := by
  intro j
  by_cases hj : j = i
  · subst hj
    simpa using hi
  · simpa [hj] using h j hj

theorem inserisciSem (hR : Rappr s a) (hS : Separati a) (hp : a.inCoda p = 0) :
    ∃ s', s.inserisciSem i (some p) = .ok s' ∧
      Rappr s' (a.setCoda i (insertByKey a.prec p (a.sem i).coda)) := by
  obtain ⟨des', coda', heq, hlink, hdati, hframe⟩ :=
    inserimentoCoda_eq (hR.coda i) (not_mem_coda hp)
  rw [insertByKey_congr fun x _ => hR.prec x] at hlink
  refine ⟨{ s with
      des := des', dessem := Function.update s.dessem i { s.dessem i with coda := coda' } },
    by simp only [Kernel.inserisciSem, heq],
    ⟨fun q => (hdati q).trans (hR.dati q), hR.esecuzione, ?_,
      update_sem ⟨hlink, hR.count i, hR.busy i⟩ fun j hj => ⟨?_, hR.count j, hR.busy j⟩,
      hR.timer, hR.proc, hR.dattesa, hR.vive, hR.procCount, hR.rescheduler⟩⟩
  · refine hR.pronti.congr fun q hq => hframe q ?_ (hS.pronti_coda hq)
    rintro rfl
    exact not_mem_pronti hp hq
  · refine (hR.coda j).congr fun q hq => hframe q ?_ (hS.coda_coda hj hq)
    rintro rfl
    exact not_mem_coda hp hq

theorem setCount (hR : Rappr s a) (i : Fin MAXSEMS) (c : Int) :
    Rappr (s.setCount i c) (a.setCount i c) :=
  ⟨hR.dati, hR.esecuzione, hR.pronti,
    update_sem ⟨hR.coda i, rfl, hR.busy i⟩ fun j _ => hR.sem j,
    hR.timer, hR.proc, hR.dattesa, hR.vive, hR.procCount, hR.rescheduler⟩

/-- `lavoro = rimozione_coda(dessem[i].coda)` takes the first process of the queue. -/
theorem rimozioneCoda (hR : Rappr s a) (hS : Separati a) (hq : (a.sem i).coda = q :: l) :
    ∃ des coda, Pitos.rimozioneCoda s.des (s.dessem i).coda = (des, coda, some q) ∧
      Rappr { s with des, dessem := Function.update s.dessem i { s.dessem i with coda } }
        (a.setCoda i l) := by
  have hi := hR.coda i
  rw [hq] at hi
  have hhead : (s.dessem i).coda = some q := hi.head_eq
  have hl : Linked (successore s.des) (s.des (some q)).next l := by
    rw [hhead] at hi
    exact (Linked.some_cons_iff.mp hi).2
  have hzero := (hS.setCoda hq).2
  have hframe : ∀ m : List Pid, q ∉ m →
      ∀ r ∈ m, successore (setNext s.des (some q) none) r = successore s.des r := by
    intro m hm r hr
    have hne : r ≠ q := fun e => hm (e ▸ hr)
    simp [successore_setNext, hne]
  refine ⟨setNext s.des (some q) none, (s.des (some q)).next, ?_,
    ⟨fun r => (slegato_setNext _ _ _ _).trans (hR.dati r), hR.esecuzione,
      hR.pronti.congr (hframe _ ?_),
      update_sem ⟨hl.congr (hframe _ ?_), hR.count i, hR.busy i⟩
        fun j hj => ⟨(hR.coda j).congr (hframe _ ?_), hR.count j, hR.busy j⟩,
      hR.timer, hR.proc, hR.dattesa, hR.vive, hR.procCount, hR.rescheduler⟩⟩
  · rw [hhead]
    rfl
  · exact not_mem_pronti (a := a.setCoda i l) hzero
  · have := not_mem_coda (i := i) hzero
    simpa [Astratto.setCoda, Astratto.setSem] using this
  · have := not_mem_coda (i := j) hzero
    simpa [Astratto.setCoda, Astratto.setSem, hj] using this

/-! ## The scheduler -/

/-- The first ready process leaves the list: `pronti = p->next; p->next = 0`. -/
theorem togliPronto (hR : Rappr s a) (hS : Separati a) (hp : a.pronti = p :: l) :
    Rappr (({ s with pronti := (s.des (some p)).next } : Kernel).aggiorna (some p)
      fun d => { d with next := none }) (a.setPronti l) := by
  have hpronti := hR.pronti
  rw [hp] at hpronti
  have hhead : s.pronti = some p := hpronti.head_eq
  rw [hhead] at hpronti
  have hl : Linked (successore s.des) (s.des (some p)).next l := (Linked.some_cons_iff.mp hpronti).2
  have hpl : p ∉ l := (List.nodup_cons.mp hpronti.nodup).1
  have hframe : ∀ m : List Pid, p ∉ m →
      ∀ r ∈ m, successore (setNext s.des (some p) none) r = successore s.des r := by
    intro m hm r hr
    have hne : r ≠ p := fun e => hm (e ▸ hr)
    simp [successore_setNext, hne]
  refine ⟨fun r => (slegato_setNext s.des (some p) none (some r)).trans (hR.dati r),
    hR.esecuzione, hl.congr (hframe _ hpl),
    fun i => ⟨(hR.coda i).congr (hframe _ (hS.pronti_coda (by simp [hp]))), hR.count i, hR.busy i⟩,
    hR.timer, hR.proc, hR.dattesa, hR.vive, hR.procCount, hR.rescheduler⟩

theorem saldo (hR : Rappr s a) :
    Rappr (if s.esecuzione ≠ none then
        s.aggiorna s.esecuzione fun d => { d with tickTotal := int32 (d.tickTotal + d.tick) }
      else s) a.saldo := by
  rw [hR.esecuzione]
  cases he : a.esecuzione with
  | none => simpa [Astratto.saldo, he] using hR
  | some e =>
    simp only [Astratto.saldo, he, ne_eq, reduceCtorEq, not_false_eq_true, if_true]
    exact hR.aggiorna e DesProc.addebitato

theorem schedulatore (hR : Rappr s a) (hS : Separati a) :
    Rappr (Pitos.schedulatore s) a.schedulatore := by
  cases hp : a.pronti with
  | nil =>
    have hnone : s.pronti = none := by simpa [hp] using hR.pronti
    simpa [Pitos.schedulatore, Astratto.schedulatore, hp, hnone] using hR
  | cons p l =>
    have hsome : s.pronti = some p := by
      have := hR.pronti.head_eq
      simpa [hp] using this
    have h1 := hR.saldo
    have h2 := h1.setEsecuzione (some p)
    have h3 := h2.aggiorna p DesProc.avviato
    have hpronti : a.saldo.pronti = a.pronti := by
      unfold Astratto.saldo
      split <;> rfl
    have hS' : Separati ((a.saldo.setEsecuzione (some p)).aggiorna p DesProc.avviato) :=
      fun q => (Astratto.inCoda_saldo (a := a)).trans_le (hS q)
    have h4 := h3.togliPronto hS' (hpronti.trans hp)
    simp only [Pitos.schedulatore, Astratto.schedulatore, hp, hsome]
    exact h4

/-! ## New priorities -/

/-- The first loop of `reschedule` visits the list once. -/
theorem ricalcola_eq {des : DesMem} {head : DesPtr} (h : Linked (successore des) head l)
    {n : Nat} (hn : l.length < n) :
    ∃ des', ricalcola n des head = some (des', l) ∧
      (∀ q, successore des' q = successore des q) ∧
      ∀ q, (des' (some q)).slegato =
        if q ∈ l then (des (some q)).slegato.ricalcolato else (des (some q)).slegato := by
  have hnodup := h.nodup
  induction l generalizing des head n with
  | nil =>
    cases n with
    | zero => simp at hn
    | succ n => exact ⟨des, by rw [Linked.nil_iff.mp h]; rfl, fun q => rfl, fun q => by simp⟩
  | cons p l ih =>
    have hhead : head = some p := h.head_eq
    rw [hhead] at h ⊢
    cases n with
    | zero => simp at hn
    | succ n =>
      have hl := (Linked.some_cons_iff.mp h).2
      obtain ⟨hpl, hnd⟩ := List.nodup_cons.mp hnodup
      let des₁ := Function.update des (some p) (des (some p)).ricalcolato
      have hsucc : ∀ q, successore des₁ q = successore des q := by
        intro q
        by_cases hq : q = p
        · subst hq
          simp [des₁, successore, DesProc.ricalcolato]
        · simp [des₁, successore, hq]
      have hl₁ : Linked (successore des₁) (des (some p)).next l := hl.congr fun q _ => hsucc q
      obtain ⟨des', heq, hnext, hdati⟩ := ih hl₁ (by simpa using hn) hnd
      refine ⟨des', ?_, fun q => (hnext q).trans (hsucc q), fun q => ?_⟩
      · have heq' : ricalcola n des₁ (des (some p)).next = some (des', l) := heq
        unfold ricalcola
        simp only [des₁, DesProc.ricalcolato] at heq'
        simp only [heq']
      · rw [hdati q]
        by_cases hq : q = p
        · subst hq
          simp [hpl, des₁, DesProc.slegato, DesProc.ricalcolato]
        · simp [hq, des₁]

/-- The second loop of `reschedule` fills the ready list. -/
theorem reinserisci_eq (hR : Rappr s a) (hS : Separati a) (hl : l.Nodup)
    (hfree : ∀ p ∈ l, a.inCoda p = 0) :
    ∃ s', reinserisci s l = .ok s' ∧
      Rappr s' (a.setPronti (fillByKey a.prec a.pronti l)) := by
  induction l generalizing s a with
  | nil => exact ⟨s, rfl, hR⟩
  | cons p l ih =>
    obtain ⟨hpl, hnd⟩ := List.nodup_cons.mp hl
    obtain ⟨s₁, heq, hR₁⟩ := hR.inserisciPronti hS (hfree p (by simp))
    obtain ⟨s', heq', hR'⟩ := ih hR₁ (hS.accoda (hfree p (by simp))) hnd fun q hq => by
      have hne : p ≠ q := fun e => hpl (e ▸ hq)
      rw [Astratto.inCoda_accoda, if_neg hne, hfree q (by simp [hq])]
    refine ⟨s', ?_, hR'⟩
    unfold reinserisci
    rw [heq]
    exact heq'

theorem reschedule (hR : Rappr s a) (hS : Separati a) :
    ∃ s', Pitos.reschedule s = .ok s' ∧ Rappr s' a.reschedule := by
  obtain ⟨des', heq, hnext, hdati⟩ := ricalcola_eq hR.pronti (length_of_linked hR.pronti)
  have hnodup := hR.pronti.nodup
  let b := a.pronti.foldl Astratto.ricalcola a
  have hb : b = _ := Astratto.foldl_ricalcola a.pronti hnodup a
  have hsucc : successore des' = successore s.des := funext hnext
  have hR₁ : Rappr { s with des := des', pronti := none } (b.setPronti []) := by
    refine ⟨fun q => ?_, ?_, Linked.nil, fun i => ⟨?_, ?_, ?_⟩, ?_, ?_, ?_, ?_, ?_, ?_⟩
    · rw [hb]
      show (des' (some q)).slegato =
        if q ∈ a.pronti then (a.ricalcola q).dati q else a.dati q
      rw [hdati q, hR.dati q]
      simp [Astratto.ricalcola]
    all_goals
      rw [hb]
    · exact hR.esecuzione
    · rw [hsucc]
      exact hR.coda i
    · exact hR.count i
    · exact hR.busy i
    · exact hR.timer
    · exact hR.proc
    · exact hR.dattesa
    · exact hR.vive
    · exact hR.procCount
    · exact hR.rescheduler
  have hcoda : ∀ q, (b.setPronti []).inCoda q + a.pronti.count q = a.inCoda q := by
    intro q
    rw [hb]
    simp only [Astratto.inCoda, Astratto.setPronti, List.count_nil]
    omega
  have hzero : ∀ q ∈ a.pronti, (b.setPronti []).inCoda q = 0 := by
    intro q hq
    have h1 := hcoda q
    have h2 := List.count_pos_iff.mpr hq
    have := hS q
    omega
  obtain ⟨s', heq', hR'⟩ := reinserisci_eq hR₁
    (fun q => by have := hcoda q; have := hS q; omega) hnodup hzero
  refine ⟨s', ?_, hR'⟩
  simp only [Pitos.reschedule, heq]
  exact heq'

end Rappr

end Pitos
