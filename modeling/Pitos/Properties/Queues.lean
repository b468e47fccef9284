import Pitos.Properties.Placement
import Pitos.Abstract.Turns

/-!
# The process queue is a stable priority queue

`coda_stabile` collects what the three routines do to a list of descriptors, whatever the other
descriptors hold: `inserimento_coda` on a list in order, `rimozione_coda` on any list and
`reschedule` on any `pronti`. The lists of the kernel are in order in every state of a run in
which the idle process lives.
-/

namespace Pitos

open Lib

/-- The elements of `pp` in `reschedule`. -/
abbrev DIMPP : Nat := 100

/-- `prec` as a function on descriptors. -/
def DesMem.prec (des : DesMem) (p : Pid) : Int := (des (some p)).prec

/-- `p` stands in `l` behind what is not larger and before what is; only `next` is written. -/
structure Inserito (des : DesMem) (l : List Pid) (p : Pid) (des' : DesMem) (coda' : DesPtr)
    (a b : List Pid) : Prop where
  parti : l = a ++ b
  linked : Linked (successore des') coda' (a ++ p :: b)
  prima : ∀ q ∈ a, des.prec q ≤ des.prec p
  dopo : ∀ q ∈ b, des.prec p < des.prec q
  ordinato : Sorted des'.prec (a ++ p :: b)
  dati : ∀ r, (des' r).slegato = (des r).slegato

/-- The first element is taken off, and only its `next` is written. -/
structure Rimosso (des : DesMem) (l : List Pid) (des' : DesMem) (coda' p : DesPtr) : Prop where
  primo : p = l.head?
  linked : Linked (successore des') coda' l.tail
  dati : ∀ r, (des' r).slegato = (des r).slegato
  altri : ∀ q : Pid, some q ≠ p → des' (some q) = des (some q)

/-- `l'` holds the elements of `l` in the order of their new priorities. -/
structure Rischedulata (s : Kernel) (l : List Pid) (s' : Kernel) (l' : List Pid) : Prop where
  linked : Linked (successore s'.des) s'.pronti l'
  perm : l'.Perm l
  prec : ∀ q ∈ l, (s'.des (some q)).prec =
    int32 ((s.des (some q)).baseprec + (s.des (some q)).tickTotal.tdiv 10)
  tickTotal : ∀ q ∈ l, (s'.des (some q)).tickTotal = 0
  ordinata : Sorted s'.prec l'
  stabile : ∀ k, l'.filter (fun q => s'.prec q = k) = l.filter (fun q => s'.prec q = k)
  altri : ∀ q, q ∉ l → s'.des (some q) = s.des (some q)

section

variable {des : DesMem} {coda : DesPtr} {l : List Pid} {p : Pid} {s : Kernel}

theorem slegato_prec {des des' : DesMem} (h : ∀ r, (des' r).slegato = (des r).slegato) :
    des'.prec = des.prec := by
  funext q
  have hq := congrArg DesProc.prec (h (some q))
  exact hq

/-- A descriptor is its data and its `next`. -/
theorem des_ext {d d' : DesProc} (h : d'.slegato = d.slegato) (hn : d'.next = d.next) :
    d' = d := by
  obtain ⟨c, k, m, r, b, n, st, t, tt, g⟩ := d
  obtain ⟨c', k', m', r', b', n', st', t', tt', g'⟩ := d'
  simp only [DesProc.slegato, DesProc.mk.injEq] at h
  simp only at hn
  obtain ⟨rfl, rfl, rfl, rfl, rfl, -, rfl, rfl, rfl, rfl⟩ := h
  rw [hn]

theorem inserimentoCoda_inserito (h : Linked (successore des) coda l) (hl : Sorted des.prec l)
    (hp : p ∉ l) : ∃ des' coda' a b, inserimentoCoda des coda (some p) = some (des', coda') ∧
      Inserito des l p des' coda' a b := by
  obtain ⟨des', coda', heq, hlink, hdati, -⟩ := inserimentoCoda_eq h hp
  obtain ⟨a, b, hab, hins, ha, hb⟩ := insertByKey_append hl p
  have hord := hl.insertByKey (p := p)
  have hlink' : Linked (successore des') coda' (insertByKey des.prec p l) := hlink
  rw [hins] at hord hlink'
  rw [← slegato_prec hdati] at hord
  exact ⟨des', coda', a, b, heq, hab, hlink', ha, hb, hord, hdati⟩

theorem rimozioneCoda_rimosso (h : Linked (successore des) coda l) :
    Rimosso des l (rimozioneCoda des coda).1 (rimozioneCoda des coda).2.1
      (rimozioneCoda des coda).2.2 := by
  cases l with
  | nil =>
    obtain rfl := Linked.nil_iff.mp h
    exact ⟨rfl, h, fun r => rfl, fun q _ => rfl⟩
  | cons p l =>
    obtain ⟨hpl, -⟩ := List.nodup_cons.mp h.nodup
    have hhead : coda = some p := h.head_eq
    subst hhead
    have hl : Linked (successore des) (successore des p) l := (Linked.some_cons_iff.mp h).2
    refine ⟨rfl, hl.congr fun q hq => ?_, fun r => slegato_setNext _ _ _ _, fun q hq => ?_⟩
    · have hne : q ≠ p := fun e => hpl (e ▸ hq)
      simp [rimozioneCoda, successore_setNext, hne]
    · exact setNext_of_ne hq

/-! ## New priorities -/

/-- The second loop of `reschedule` fills `pronti` and writes nothing else. -/
theorem reinserisci_riempie {acc : List Pid} (h : Linked (successore s.des) s.pronti acc)
    (hl : l.Nodup) (hd : ∀ q ∈ l, q ∉ acc) :
    ∃ s', reinserisci s l = .ok s' ∧
      Linked (successore s'.des) s'.pronti (fillByKey s.prec acc l) ∧
      (∀ r, (s'.des r).slegato = (s.des r).slegato) ∧
      ∀ q : Pid, q ∉ acc → q ∉ l → successore s'.des q = successore s.des q := by
  induction l generalizing s acc with
  | nil => exact ⟨s, rfl, h, fun r => rfl, fun q _ _ => rfl⟩
  | cons p l ih =>
    obtain ⟨hpl, hnd⟩ := List.nodup_cons.mp hl
    obtain ⟨des', coda', heq, hlink, hdati, hframe⟩ := inserimentoCoda_eq h (hd p (by simp))
    let s₁ : Kernel := { s with des := des', pronti := coda' }
    have hprec : s₁.prec = s.prec := slegato_prec hdati
    have hlink₁ : Linked (successore s₁.des) s₁.pronti (insertByKey s.prec p acc) := hlink
    obtain ⟨s', heq', hlink', hdati', hframe'⟩ := ih (s := s₁) hlink₁ hnd fun q hq hacc => by
      rcases mem_insertByKey.mp hacc with rfl | hacc
      · exact hpl hq
      · exact hd q (by simp [hq]) hacc
    rw [hprec] at hlink'
    refine ⟨s', ?_, hlink', fun r => (hdati' r).trans (hdati r), fun q hacc hq => ?_⟩
    · unfold reinserisci
      simp only [Kernel.inserisciPronti, heq]
      exact heq'
    · have hqp : q ≠ p := fun e => hq (e ▸ List.mem_cons_self)
      have hql : q ∉ l := fun h => hq (List.mem_cons_of_mem _ h)
      refine (hframe' q (fun h => ?_) hql).trans (hframe q hqp hacc)
      rcases mem_insertByKey.mp h with rfl | h
      · exact hqp rfl
      · exact hacc h

/-- Both loops of `reschedule` end, the first one with all elements of `pronti` in `pp`. -/
theorem reschedule_rischedulata (h : Linked (successore s.des) s.pronti l) :
    ∃ des₁ s' l', ricalcola (MAXPROCS + 1) s.des s.pronti = some (des₁, l) ∧
      reschedule s = .ok s' ∧ Rischedulata s l s' l' := by
  obtain ⟨des₁, heq, hnext, hdati⟩ := Rappr.ricalcola_eq h (length_of_linked h)
  let s₁ : Kernel := { s with des := des₁, pronti := none }
  have hvuota : Linked (successore s₁.des) s₁.pronti [] := Linked.nil
  obtain ⟨s', heq', hlink, hdati', hframe⟩ := reinserisci_riempie hvuota h.nodup
    fun q _ => List.not_mem_nil
  have hprec : s'.prec = s₁.prec := slegato_prec hdati'
  have hvoce : ∀ q ∈ l, (s'.des (some q)).slegato = (s.des (some q)).slegato.ricalcolato := by
    intro q hq
    have hq' := hdati q
    rw [if_pos hq] at hq'
    exact (hdati' (some q)).trans hq'
  refine ⟨des₁, s', sortByKey s'.prec l, heq, ?_, ?_, sortByKey_perm _ _, fun q hq => ?_,
    fun q hq => ?_, sortByKey_sorted _ _, fun k => filter_sortByKey k, fun q hq => ?_⟩
  · simp only [reschedule, heq]
    exact heq'
  · rw [hprec]
    exact hlink
  · have hpr := congrArg DesProc.prec (hvoce q hq)
    exact hpr
  · have htot := congrArg DesProc.tickTotal (hvoce q hq)
    exact htot
  · have hq' := hdati q
    rw [if_neg hq] at hq'
    exact des_ext ((hdati' (some q)).trans hq')
      ((hframe q List.not_mem_nil hq).trans (hnext q))

end

/-! ## The runs -/

/-- `pronti` and the queues of the semaphores are in the order of `prec`. -/
def CodeOrdinate (s : Kernel) : Prop :=
  ∃ L : s.Luoghi, Sorted s.prec L.pronti ∧ ∀ i, Sorted s.prec (L.code i)

/-- The two orders, along the moves. -/
theorem Mossa.ordini {a b : Astratto} {ts : List Atto} (hr : Run Mossa a ts b) (hI : Inv a)
    (hO : Ordinato a ∧ ∀ i, Sorted a.prec (a.sem i).coda) :
    Ordinato b ∧ ∀ i, Sorted b.prec (b.sem i).coda := by
  induction hr with
  | nil => exact hO
  | cons hm _ ih => exact ih (hm.inv hI) ⟨hm.ordinato hI hO.1, hm.coda_ordinata hI hO.2⟩

theorem Raggiunge.codeOrdinate {s : Kernel} {es : List Evento} (h : Raggiunge IdleVivo es s) :
    CodeOrdinate s := by
  obtain ⟨a, hR, -, hpronti, hcoda⟩ := h.segue
    (J := fun a => Ordinato a ∧ ∀ i, Sorted a.prec (a.sem i).coda) (fun _ _ h => h)
    (fun a ha => ⟨by simp [Ordinato, Sorted, ha.pronti], fun i => by simp [Sorted, ha.coda i]⟩)
    (fun _ _ _ hI _ hm hO => Mossa.ordini (Run.single hm) hI hO)
    (fun _ _ _ _ _ _ _ hA _ _ _ _ hrun hO => Mossa.ordini hrun hA.inv hO)
  have hprec : s.prec = a.prec := funext hR.prec
  refine ⟨hR.luoghi, ?_, fun i => ?_⟩
  · rw [hprec]
    exact hpronti
  · rw [hprec]
    exact hcoda i

/-- **The process queue is a stable priority queue.** -/
theorem coda_stabile :
    (∀ des coda l p, Linked (successore des) coda l → Sorted des.prec l → p ∉ l →
      ∃ des' coda' a b, inserimentoCoda des coda (some p) = some (des', coda') ∧
        Inserito des l p des' coda' a b) ∧
    (∀ des coda l, Linked (successore des) coda l → Rimosso des l (rimozioneCoda des coda).1
      (rimozioneCoda des coda).2.1 (rimozioneCoda des coda).2.2) ∧
    (∀ s l, Linked (successore s.des) s.pronti l → l.length ≤ DIMPP ∧
      ∃ des₁ s' l', ricalcola (MAXPROCS + 1) s.des s.pronti = some (des₁, l) ∧
        reschedule s = .ok s' ∧ Rischedulata s l s' l') ∧
    ∀ es x, Sistema.Raggiunge DisciplinaAvvio Disciplina es x → CodeOrdinate x.kernel := by
  refine ⟨fun _ _ _ _ h hl hp => inserimentoCoda_inserito h hl hp,
    fun _ _ _ h => rimozioneCoda_rimosso h, fun s l h => ⟨?_, reschedule_rischedulata h⟩,
    fun es x h => ?_⟩
  · have hlen : l.length < 20 + 1 := length_of_linked h
    show l.length ≤ 100
    omega
  · have hidle := h.idle_vivo fun x e hd => hd.senzaQuit
    exact (hidle.kernel (H := IdleVivo) fun x e hg => hg.2).codeOrdinate

/-- One process waits at a semaphore, and two of its priority stand in `pronti` before the idle
process. -/
theorem coda_stabile_corsa : ∃ x, Sistema.Raggiunge DisciplinaAvvio Disciplina
    [.chiamata (.semIni 0 0x6000 0x6004), .chiamata (.semWait 19)] x ∧
      (∀ q ∈ ([1, 3, 4] : List Pid), x.kernel.prec q = 10) ∧ CodeOrdinate x.kernel ∧
      (∃ s' l', reschedule x.kernel = .ok s' ∧ Rischedulata x.kernel [3, 4, 0] s' l') ∧
      ∃ des' coda' a b,
        inserimentoCoda x.kernel.des x.kernel.pronti (some 1) = some (des', coda') ∧
          Inserito x.kernel.des [3, 4, 0] 1 des' coda' a b := by
  obtain ⟨x, hx, hP⟩ := Sistema.prova_raggiunge (B := DisciplinaAvvio) (G := Disciplina)
    [.attiva 0x7000 0 10 3 0x5010 0x5014 (pila 0x20000),
      .attiva 0x7100 0 10 3 0x5018 0x501c (pila 0x22000),
      .attiva 0x7200 0 10 3 0x5018 0x501c (pila 0x24000),
      .attiva 0x7300 0 10 3 0x5018 0x501c (pila 0x26000)]
    [.chiamata (.semIni 0 0x6000 0x6004), .chiamata (.semWait 19)]
    (fun x => (x.kernel.pronti = some 3 ∧ successore x.kernel.des 3 = some 4 ∧
      successore x.kernel.des 4 = some 0 ∧ successore x.kernel.des 0 = none) ∧
        (∀ q ∈ ([1, 3, 4] : List Pid), x.kernel.prec q = 10) ∧ x.kernel.prec 0 = 3000)
    (by decide +kernel)
  obtain ⟨⟨hhead, h3, h4, h0⟩, hprec, hidle⟩ := of_decide_eq_true hP
  have hlink : Linked (successore x.kernel.des) x.kernel.pronti [3, 4, 0] := by
    rw [hhead]
    apply Linked.cons
    rw [h3]
    apply Linked.cons
    rw [h4]
    apply Linked.cons
    rw [h0]
    exact .nil
  have hsorted : Sorted x.kernel.des.prec [3, 4, 0] := by
    have h3 : x.kernel.des.prec 3 = 10 := hprec 3 (by simp)
    have h4 : x.kernel.des.prec 4 = 10 := hprec 4 (by simp)
    have h0 : x.kernel.des.prec 0 = 3000 := hidle
    simp [Sorted, h3, h4, h0]
  obtain ⟨-, des₁, s', l', -, heq, hl'⟩ := coda_stabile.2.2.1 _ _ hlink
  exact ⟨x, hx, hprec, coda_stabile.2.2.2 _ x hx, ⟨s', l', heq, hl'⟩,
    coda_stabile.1 _ _ _ 1 hlink hsorted (by simp)⟩

end Pitos
