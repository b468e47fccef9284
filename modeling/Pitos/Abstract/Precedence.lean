import Pitos.Abstract.Charges
import Pitos.Lib.Overtaking

/-!
# What a process pays for its ticks

`reschedule` gives a ready process the priority `baseprec + tickTotal / 10`, so a process is never
in front of its base priority (`Contenuto`), and how far it is behind depends on what it was
charged. Two questions are answered move by move: who can get in front of a ready process whose
base priority is the best (`Mossa.mancanti_le`), and how far behind a process gets that always
wants to run (`Mossa.grava`).
-/

namespace Pitos

open Lib Astratto

variable {a b c : Astratto} {t : Atto} {p q r : Pid} {n : Int} {l : List Pid}

/-! ## The accounts -/

/-- The charge of the scheduler. -/
theorem Astratto.tickTotal_schedulatore_cases (c : Astratto) (q : Pid) :
    (c.schedulatore.dati q).tickTotal = (c.dati q).tickTotal ∨ c.esecuzione = some q ∧
      (c.schedulatore.dati q).tickTotal = int32 ((c.dati q).tickTotal + (c.dati q).tick) := by
  cases hc : c.pronti with
  | nil =>
    refine Or.inl ?_
    simp [schedulatore, hc]
  | cons r l =>
    rw [tickTotal_schedulatore hc]
    by_cases hq : c.esecuzione = some q
    · rw [if_pos hq]
      exact Or.inr ⟨hq, rfl⟩
    · rw [if_neg hq]
      exact Or.inl rfl

/-- Base priorities are given at the activation. -/
theorem Mossa.baseprec_eq (h : Mossa a t b) (hI : Inv a) (hq : q ∈ a.vivi) :
    (b.dati q).baseprec = (a.dati q).baseprec := by
  by_cases ht : t = .dati ∨ t = .chiude
  · cases h with
    | dati p d he hp h => exact campo_aggiorna DesProc.baseprec h.baseprec q
    | chiude he => exact campo_aggiorna DesProc.baseprec (f := DesProc.chiuso) rfl q
    | _ => rcases ht with ht | ht <;> cases ht
  · exact (h.registri hI hq (fun e => absurd (Or.inl e) ht) fun e => absurd (Or.inr e) ht).baseprec

/-- A process is charged when it leaves the CPU, except that `reschedule` settles the accounts. -/
theorem Mossa.tickTotal_cases (h : Mossa a t b) (ht : t ≠ .rischedula) (hq : q ∈ a.vivi) :
    (b.dati q).tickTotal = (a.dati q).tickTotal ∨ a.esecuzione = some q ∧
      (b.dati q).tickTotal = int32 ((a.dati q).tickTotal + (a.dati q).tick) := by
  cases h with
  | parte he => exact tickTotal_schedulatore_cases a q
  | dati p d he hp h => exact Or.inl (campo_aggiorna DesProc.tickTotal h.tickTotal q)
  | chiude he =>
    exact Or.inl (campo_aggiorna DesProc.tickTotal (f := DesProc.chiuso) rfl q)
  | attiva p d he hfree hstato htick htotal hbase hmask hgestori =>
    have hne : q ≠ p := fun e => mem_vivi.mp hq (e ▸ hfree)
    refine Or.inl ?_
    rw [dati_accoda]
    show ((a.aggiorna p fun _ => d).dati q).tickTotal = _
    rw [dati_aggiorna, Function.update_of_ne hne]
  | termina p he hp =>
    have h0 : ((a.aggiorna p DesProc.libero).dati q).tickTotal = (a.dati q).tickTotal :=
      campo_aggiorna DesProc.tickTotal rfl q
    have h1 : ((a.aggiorna p DesProc.libero).dati q).tick = (a.dati q).tick := tick_aggiorna rfl q
    have hs := tickTotal_schedulatore_cases
      ((a.aggiorna p DesProc.libero).setProcCount (int32 (a.procCount - 1))) q
    change _ = ((a.aggiorna p DesProc.libero).dati q).tickTotal ∨ a.esecuzione = some q ∧
      _ = int32 (((a.aggiorna p DesProc.libero).dati q).tickTotal +
        ((a.aggiorna p DesProc.libero).dati q).tick) at hs
    rwa [h0, h1] at hs
  | blocca i p he hp hc => exact tickTotal_schedulatore_cases _ q
  | cede i p r l he hc hq hprec =>
    exact Or.inl (campo_aggiorna DesProc.tickTotal (f := DesProc.pronto) rfl q)
  | dorme d x he hp hx => exact tickTotal_schedulatore_cases _ q
  | orologio =>
    refine Or.inl ?_
    rw [Astratto.orologio, svegliaTutti_eq]
    simp only [setSonno]
    split <;> rfl
  | conta p he => exact Or.inl (campo_aggiorna DesProc.tickTotal (f := DesProc.contato) rfl q)
  | prelazione p he hr ht' => exact tickTotal_schedulatore_cases _ q
  | rischedula p he hr => exact absurd rfl ht
  | _ => exact Or.inl rfl

/-- It runs or is ready. -/
def InGara (p : Pid) (a : Astratto) : Prop := a.esecuzione = some p ∨ p ∈ a.pronti

theorem Inv.inGara_vivi (h : Inv a) (hq : InGara q a) : q ∈ a.vivi := by
  rcases hq with he | hq
  · exact h.esecuzione_vivi he
  · exact h.pronti_vivi q hq

/-- The processes that are not in the race keep their accounts when new priorities are given. -/
theorem Mossa.rischedula_fuori (h : Mossa a .rischedula b) (hI : Inv a) (hq : ¬ InGara q a) :
    (b.dati q).tickTotal = (a.dati q).tickTotal := by
  cases h with
  | rischedula p he hr =>
    have hqp : q ≠ p := fun e => hq (Or.inl (e ▸ he))
    have hno : q ∉ (((a.setRescheduler 0).aggiorna p DesProc.addebitato).accoda p).pronti := by
      intro hmem
      rcases mem_insertByKey.mp hmem with e | hmem
      · exact hqp e
      · exact hq (Or.inr hmem)
    rcases tickTotal_schedulatore_cases
      (((a.setRescheduler 0).aggiorna p DesProc.addebitato).accoda p).reschedule q with hs | hs
    · rw [hs, dati_reschedule (hI.accoda_nodup he), if_neg hno, dati_accoda, dati_aggiorna,
        Function.update_of_ne hqp]
      rfl
    · rw [esecuzione_reschedule] at hs
      exact absurd (Or.inl hs.1) hq

/-- New priorities: what a process was charged since the last time puts it back, and the account
starts again from the ticks of the running process, which are charged a second time. -/
theorem Mossa.rischedula_dati (h : Mossa a .rischedula b) (hI : Inv a) (hq : InGara q a) :
    b.prec q = int32 ((a.dati q).baseprec + (a.saldo.dati q).tickTotal.tdiv 10) ∧
      (b.dati q).tickTotal = int32 (a.sospesi q) := by
  cases h with
  | rischedula p he hr =>
    have hmem : q ∈ (((a.setRescheduler 0).aggiorna p DesProc.addebitato).accoda p).pronti := by
      refine mem_insertByKey.mpr ?_
      rcases hq with hq | hq
      · exact Or.inl (Option.some.inj (hq.symm.trans he))
      · exact Or.inr hq
    have hdati : (((a.setRescheduler 0).aggiorna p DesProc.addebitato).accoda p).reschedule.dati q =
        (a.saldo.dati q).ricalcolato := by
      rw [dati_reschedule (hI.accoda_nodup he), if_pos hmem, Astratto.ricalcola, dati_aggiorna,
        Function.update_self]
      simp only [saldo, he]
      rfl
    constructor
    · rw [prec_schedulatore]
      unfold prec
      rw [hdati]
      show int32 ((a.saldo.dati q).baseprec + _) = _
      rw [campo_saldo DesProc.baseprec fun _ => rfl]
    · have hne := pronti_reschedule_ne_nil (a := ((a.setRescheduler 0).aggiorna p
        DesProc.addebitato).accoda p) pronti_accoda_ne_nil
      obtain ⟨r, l, hr⟩ := List.exists_cons_of_ne_nil hne
      rw [tickTotal_schedulatore hr, esecuzione_reschedule]
      have htick : (a.saldo.dati q).tick = (a.dati q).tick := tick_saldo
      have hzero : (a.saldo.dati q).ricalcolato.tickTotal = 0 := rfl
      show (if a.esecuzione = some q then _ else _) = _
      rw [hdati, hzero, zero_add]
      unfold sospesi
      split
      · exact congrArg int32 htick
      · rfl

theorem Mossa.attiva_dati {k : Int} (h : Mossa a (.attiva q k) b) :
    (b.dati q).tickTotal = 0 ∧ (b.dati q).tick = 0 ∧ (b.dati q).baseprec = k ∧ b.prec q = k := by
  cases h with
  | attiva p d he hfree hstato htick htotal hbase hmask hgestori =>
    have hd : (((a.aggiorna q fun _ => d).setProcCount (int32 (a.procCount + 1))).accoda q).dati q =
        d := by
      rw [dati_accoda]
      show (a.aggiorna q fun _ => d).dati q = d
      rw [dati_aggiorna, Function.update_self]
    unfold prec
    rw [hd]
    exact ⟨htotal, htick, hbase, rfl⟩

theorem Atto.mem_vivi {v : Finset Pid} (h : q ∈ t.vivi v) : q ∈ v ∨ ∃ k, t = .attiva q k := by
  cases t with
  | attiva p k =>
    rcases Finset.mem_insert.mp h with rfl | h
    · exact Or.inr ⟨k, rfl⟩
    · exact Or.inl h
  | termina p => exact Or.inl (Finset.mem_of_mem_erase h)
  | _ => exact Or.inl h

/-! ## Nothing wraps -/

/-- A bound for base priorities and accounts that keeps the sums of `reschedule` in range. -/
abbrev LIMITE : Int := 1000000000

/-- An account with `n` ticks at most, and a priority that is not in front of the base. -/
structure Contenuto (n : Int) (d : DesProc) : Prop where
  nonneg : 0 ≤ d.tickTotal
  total : d.tickTotal ≤ n
  prec : d.baseprec ≤ d.prec

def Contenuti (n : Int) (a : Astratto) : Prop := ∀ q ∈ a.vivi, Contenuto n (a.dati q)

def Moderato (d : DesProc) : Prop := -LIMITE ≤ d.baseprec ∧ d.baseprec ≤ LIMITE

theorem Quanti.pochi (hQ : Quanti n a) (hn : 0 ≤ n) (q : Pid) :
    0 ≤ a.sospesi q ∧ a.sospesi q ≤ n := by
  unfold Astratto.sospesi
  split
  · rename_i he
    exact hQ.esecuzione q he
  · exact ⟨le_rfl, hn⟩

theorem Contenuti.mono {m : Int} (h : Contenuti n a) (hmn : n ≤ m) : Contenuti m a := fun q hq =>
  ⟨(h q hq).nonneg, (h q hq).total.trans hmn, (h q hq).prec⟩

/-- What a process in the race owes. -/
theorem Contenuti.saldo (h : Contenuti n a) (hQ : Quanti (QUANTUM + 1) a)
    (hn : n ≤ LIMITE + 100) (hq : q ∈ a.vivi) : (a.saldo.dati q).tickTotal = a.conto q := by
  obtain ⟨h0, h1⟩ := hQ.pochi (by decide) q
  have hnonneg := (h q hq).nonneg
  have htotal := (h q hq).total
  rw [tickTotal_saldo]
  unfold conto
  unfold sospesi at h0 h1 ⊢
  split
  · rename_i he
    rw [if_pos he] at h0 h1
    simp only [QUANTUM, LIMITE] at h1 hn
    exact int32_of_range (by omega) (by simp only [INT_MAX]; omega)
  · exact (add_zero _).symm

/-- The new priority is behind the base by the tenth part of what the process owes. -/
theorem Mossa.rischedula_prec (h : Mossa a .rischedula b) (hI : Inv a)
    (hQ : Quanti (QUANTUM + 1) a) (hC : Contenuti n a) (hn : n ≤ LIMITE + 100)
    (hM : Moderato (a.dati q)) (hq : InGara q a) :
    b.prec q = (a.dati q).baseprec + (a.conto q).tdiv 10 ∧
      (b.dati q).tickTotal = a.sospesi q ∧ 0 ≤ a.conto q ∧ a.conto q ≤ n + QUANTUM + 1 := by
  have hv := hI.inGara_vivi hq
  obtain ⟨hprec, htotal⟩ := h.rischedula_dati hI hq
  obtain ⟨h0, h1⟩ := hQ.pochi (by decide) q
  have hnonneg := (hC q hv).nonneg
  have hle := (hC q hv).total
  have hconto : 0 ≤ a.conto q ∧ a.conto q ≤ n + QUANTUM + 1 := by
    unfold Astratto.conto
    omega
  rw [hC.saldo hQ hn hv] at hprec
  obtain ⟨hb, hb'⟩ := hM
  have hdiv : 0 ≤ (a.conto q).tdiv 10 ∧ (a.conto q).tdiv 10 ≤ a.conto q := by
    rw [Int.tdiv_eq_ediv_of_nonneg hconto.1]
    omega
  simp only [QUANTUM, LIMITE] at hb hb' hn hconto h1
  refine ⟨?_, ?_, hconto.1, hconto.2⟩
  · rw [hprec]
    refine int32_of_range (by omega) ?_
    rw [Int.tdiv_eq_ediv_of_nonneg hconto.1]
    simp only [INT_MAX]
    omega
  · rw [htotal]
    exact int32_of_range (by omega) (by simp only [INT_MAX]; omega)

/-- One move adds a quantum to an account at most, and no priority gets in front of its base. -/
theorem Mossa.contenuti (h : Mossa a t b) (hI : Inv a) (hQ : Quanti (QUANTUM + 1) a)
    (hC : Contenuti n a) (hn : n ≤ LIMITE + 100)
    (hM : t = .rischedula → ∀ q ∈ a.vivi, Moderato (a.dati q)) : Contenuti (n + QUANTUM + 1) b := by
  intro q hq
  rw [h.vivi_eq hI] at hq
  have hmax : (QUANTUM : Int) = 10 := rfl
  rcases Atto.mem_vivi hq with hq | ⟨k, rfl⟩
  · have hbase := h.baseprec_eq hI hq
    obtain ⟨h0, h1, hprec⟩ := hC q hq
    by_cases ht : t = .rischedula
    · subst ht
      by_cases hg : InGara q a
      · obtain ⟨hp, htot, hc, hc'⟩ := h.rischedula_prec hI hQ hC hn (hM rfl q hq) hg
        obtain ⟨hs, hs'⟩ := hQ.pochi (by decide) q
        rw [Int.tdiv_eq_ediv_of_nonneg hc] at hp
        refine ⟨by omega, by omega, ?_⟩
        rw [hbase]
        show _ ≤ b.prec q
        omega
      · have htot := h.rischedula_fuori hI hg
        have hp : b.prec q = a.prec q := h.prec_eq hI hq fun _ =>
          ⟨fun hm => hg (Or.inr hm), fun he => hg (Or.inl he)⟩
        refine ⟨by omega, by omega, ?_⟩
        rw [hbase]
        exact hprec.trans hp.ge
    · have hp : b.prec q = a.prec q := h.prec_eq hI hq fun e => absurd e ht
      have hprec' : (b.dati q).baseprec ≤ (b.dati q).prec := by
        rw [hbase]
        exact hprec.trans hp.ge
      rcases h.tickTotal_cases ht hq with htot | ⟨he, htot⟩
      · exact ⟨by omega, by omega, hprec'⟩
      · obtain ⟨hs, hs'⟩ := hQ.esecuzione q he
        simp only [LIMITE] at hn
        rw [int32_of_range (by omega) (by simp only [INT_MAX]; omega)] at htot
        exact ⟨by omega, by omega, hprec'⟩
  · obtain ⟨htot, -, hbase, hprec⟩ := h.attiva_dati
    by_cases hn0 : 0 ≤ n
    · refine ⟨by omega, by omega, ?_⟩
      rw [hbase]
      exact hprec.ge
    · -- an account of a live process is not negative, and the idle process is alive
      have := (hC idle hI.idle_vivo).nonneg
      have := (hC idle hI.idle_vivo).total
      omega

/-! ## Who stands in front -/

/-- The number of ready processes in front of `q`. -/
def Astratto.davanti (a : Astratto) (q : Pid) : Nat := a.pronti.idxOf q

theorem Astratto.davanti_lt (hI : Inv a) (hq : q ∈ a.pronti) : a.davanti q < MAXPROCS := by
  have hlength : a.pronti.length ≤ Fintype.card Pid := hI.unico.pronti_nodup.length_le_card
  rw [Fintype.card_fin] at hlength
  exact (List.idxOf_lt_length_of_mem hq).trans_le hlength

theorem Ordinato.davanti_accoda (h : Ordinato c) (hq : q ∈ c.pronti) (hp : c.prec q ≤ c.prec p) :
    (c.accoda p).davanti q = c.davanti q := idxOf_insertByKey h hq hp

/-- The scheduler takes one away. -/
theorem Astratto.davanti_schedulatore (hc : c.pronti.Nodup) (hq : q ∈ c.schedulatore.pronti) :
    c.schedulatore.davanti q + 1 = c.davanti q := by
  cases hp : c.pronti with
  | nil =>
    have hs : c.schedulatore = c := by simp [schedulatore, hp]
    rw [hs, hp] at hq
    cases hq
  | cons r l =>
    unfold davanti
    rw [pronti_schedulatore hp] at hq ⊢
    rw [hp] at hc ⊢
    exact idxOf_tail hc hq

theorem Astratto.davanti_orologio (hO : Ordinato a) (hI : Inv a) (hq : q ∈ a.pronti)
    (hmin : ∀ r ∈ a.vivi, a.prec q ≤ a.prec r) : a.orologio.davanti q = a.davanti q := by
  unfold davanti
  rw [Astratto.orologio, svegliaTutti_eq]
  refine idxOf_fillByKey hO hq ?_
  intro r hr
  refine hmin r ?_
  have hr' : r ∈ (scalaAttesa a.sonno).map fun x => x.1.2 := by
    rw [← ringing_append_waiting (scalaAttesa a.sonno), List.map_append]
    exact List.mem_append_left _ hr
  rw [scalaAttesa_proc] at hr'
  obtain ⟨x, hx, rfl⟩ := List.mem_map.mp hr'
  exact hI.sonno_vivi x hx

/-- Nobody gets in front of a ready process that is behind none, and at the end of a turn there is
one less. -/
theorem Mossa.davanti_le (h : Mossa a t b) (hI : Inv a) (hO : Ordinato a) (hq : q ∈ a.pronti)
    (hq' : q ∈ b.pronti) (hmin : ∀ r ∈ a.vivi, a.prec q ≤ a.prec r)
    (hmin' : ∀ r ∈ b.vivi, b.prec q ≤ b.prec r) :
    b.davanti q ≤ a.davanti q ∧ (Scade t → b.davanti q + 1 ≤ a.davanti q) := by
  have hnodup := hI.unico.pronti_nodup
  have hscende : ∀ {c : Astratto}, c.pronti = a.pronti → q ∈ c.schedulatore.pronti →
      c.schedulatore.davanti q ≤ a.davanti q := by
    intro c hc hs
    have := davanti_schedulatore (hc ▸ hnodup) hs
    have : c.davanti q = a.davanti q := congrArg (List.idxOf q) hc
    omega
  cases h with
  | parte he => exact ⟨hscende rfl hq', by simp [Scade]⟩
  | attiva p d he hfree hstato htick htotal hbase hmask hgestori =>
    have hO' : Ordinato ((a.aggiorna p fun _ => d).setProcCount (int32 (a.procCount + 1))) := by
      refine Sorted.congr hO ?_
      intro r hr
      have hne : r ≠ p := fun e => not_mem_pronti (hI.inCoda_of_free hfree) (e ▸ hr)
      simp [prec, setProcCount, hne]
    have hp := hmin' p (mem_vivi.mpr (by simp [setProcCount, hstato]))
    exact ⟨(hO'.davanti_accoda hq hp).le, by simp [Scade]⟩
  | termina p he hp => exact ⟨hscende rfl hq', by simp [Scade]⟩
  | blocca i p he hp hc => exact ⟨hscende rfl hq', by simp [Scade]⟩
  | sveglia i p r l he hc hr hprec =>
    have hv := hI.coda_vivi (i := i) r (by rw [hr]; exact List.mem_cons_self)
    have hO' : Ordinato ((a.setCount i (int32 ((a.sem i).count + 1))).setCoda i l) := hO
    exact ⟨(hO'.davanti_accoda hq (hmin r hv)).le, by simp [Scade]⟩
  | cede i p r l he hc hr hprec =>
    have hO' : Ordinato ((a.setCount i (int32 ((a.sem i).count + 1))).setCoda i l) := hO
    exact ⟨(hO'.davanti_accoda hq (hmin p (hI.esecuzione_vivi he))).le, by simp [Scade]⟩
  | dorme d x he hp hx => exact ⟨hscende rfl hq', by simp [Scade]⟩
  | orologio => exact ⟨(davanti_orologio hO hI hq hmin).le, by simp [Scade]⟩
  | prelazione p he hr ht =>
    have hO' : Ordinato (a.setRescheduler (int32 (a.rescheduler + 1))) := hO
    have hcoda := hO'.davanti_accoda hq (hmin p (hI.esecuzione_vivi he))
    have hs := davanti_schedulatore (hI.accoda_nodup he) hq'
    have heq : (a.setRescheduler (int32 (a.rescheduler + 1))).davanti q = a.davanti q := rfl
    constructor
    · omega
    · intro _
      omega
  | rischedula p he hr =>
    let c := (a.setRescheduler 0).aggiorna p DesProc.addebitato
    have hO' : Ordinato c := hO.aggiorna (a := a.setRescheduler 0) fun _ => rfl
    have hprec : c.prec = a.prec := prec_aggiorna (a := a.setRescheduler 0) _ fun _ => rfl
    have hp : c.prec q ≤ c.prec p := by
      rw [hprec]
      exact hmin p (hI.esecuzione_vivi he)
    have hcoda : (c.accoda p).davanti q = a.davanti q := hO'.davanti_accoda hq hp
    have hresc : (c.accoda p).reschedule.davanti q ≤ (c.accoda p).davanti q := by
      refine idxOf_sortByKey_le (mem_insertByKey.mpr (Or.inr hq)) ?_
      intro r hr'
      have hv : r ∈ a.vivi := hI.accoda_vivi he r hr'
      have hle := hmin' r ((Finset.ext_iff.mp ((Mossa.rischedula p he hr).vivi_eq hI) r).mpr hv)
      rwa [prec_schedulatore] at hle
    have hnodup' : (c.accoda p).reschedule.pronti.Nodup :=
      (sortByKey_perm _ _).nodup_iff.mpr (hI.accoda_nodup he)
    have hs := davanti_schedulatore hnodup' hq'
    have hmeno : (c.accoda p).reschedule.schedulatore.davanti q + 1 ≤ a.davanti q := by omega
    exact ⟨Nat.le_of_succ_le hmeno, fun _ => hmeno⟩
  | _ => exact ⟨le_rfl, by simp [Scade]⟩

/-! ## The turns that are missing -/

/-- The number of new priorities that a ready process may have to wait for: its account is settled
by the first and it gets its base priority from the second. From then on those in front of it
get the CPU one after the other. -/
def Astratto.mancanti (a : Astratto) (q : Pid) : Nat :=
  if (a.dati q).tickTotal ≠ 0 then MAXPROCS + 1
  else if a.prec q ≠ (a.dati q).baseprec then MAXPROCS
  else a.davanti q

theorem Astratto.mancanti_le (hI : Inv a) (hq : q ∈ a.pronti) : a.mancanti q ≤ MAXPROCS + 1 := by
  have := davanti_lt hI hq
  unfold mancanti
  split
  · exact le_rfl
  · split <;> omega

/-- No live process has a better base priority than `k`. -/
def Minimo (k : Int) (a : Astratto) : Prop := ∀ r ∈ a.vivi, k ≤ (a.dati r).baseprec

theorem Mossa.minimo {k : Int} (h : Mossa a t b) (hI : Inv a) (hM : Minimo k a)
    (ht : ∀ r j, t = .attiva r j → k ≤ j) : Minimo k b := by
  intro r hr
  rw [h.vivi_eq hI] at hr
  rcases Atto.mem_vivi hr with hr | ⟨j, rfl⟩
  · rw [h.baseprec_eq hI hr]
    exact hM r hr
  · rw [h.attiva_dati.2.2.1]
    exact ht r j rfl

/-- Who has the best base priority and got it is behind none. -/
theorem Minimo.prec (hM : Minimo (a.dati q).baseprec a) (hC : Contenuti n a)
    (hq : a.prec q = (a.dati q).baseprec) : ∀ r ∈ a.vivi, a.prec q ≤ a.prec r := by
  intro r hr
  rw [hq]
  exact (hM r hr).trans (hC r hr).prec

theorem Mossa.mancanti_le (h : Mossa a t b) (hI : Inv a) (hQ : Quanti (QUANTUM + 1) a)
    (hO : Ordinato a) (hC : Contenuti n a) (hn : n ≤ LIMITE + 100)
    (hmod : t = .rischedula → ∀ q ∈ a.vivi, Moderato (a.dati q))
    (hM : Minimo (a.dati q).baseprec a) (ht : ∀ r j, t = .attiva r j → (a.dati q).baseprec ≤ j)
    (hq : q ∈ a.pronti) (hq' : q ∈ b.pronti) :
    b.mancanti q ≤ a.mancanti q ∧ (t = .rischedula → b.mancanti q + 1 ≤ a.mancanti q) := by
  have hv := hI.pronti_vivi q hq
  have hbase := h.baseprec_eq hI hv
  have hlt := davanti_lt (h.inv hI) hq'
  have hdavanti : a.prec q = (a.dati q).baseprec → b.prec q = (b.dati q).baseprec →
      b.davanti q ≤ a.davanti q ∧ (Scade t → b.davanti q + 1 ≤ a.davanti q) := fun ha hb =>
    h.davanti_le hI hO hq hq' (hM.prec hC ha)
      ((hbase ▸ h.minimo hI hM ht).prec (h.contenuti hI hQ hC hn hmod) hb)
  have hcorre : a.esecuzione ≠ some q := fun he =>
    not_mem_pronti (hI.inCoda_esecuzione he) hq
  by_cases hr : t = .rischedula
  · obtain ⟨hprec, htotal, hc, -⟩ :=
      (hr ▸ h).rischedula_prec hI hQ hC hn (hmod hr q hv) (Or.inr hq)
    rw [Astratto.sospesi_of_ne hcorre] at htotal
    have hb : b.mancanti q ≤ MAXPROCS := by
      unfold Astratto.mancanti
      rw [if_neg (not_not.mpr htotal)]
      split <;> omega
    have hmeno : b.mancanti q + 1 ≤ a.mancanti q := by
      by_cases hz : (a.dati q).tickTotal = 0
      · -- nothing is owed, so the base priority is given
        have hbprec : b.prec q = (b.dati q).baseprec := by
          rw [hprec, hbase]
          unfold Astratto.conto
          rw [hz, Astratto.sospesi_of_ne hcorre]
          exact add_zero _
        have hbm : b.mancanti q = b.davanti q := by
          unfold Astratto.mancanti
          rw [if_neg (not_not.mpr htotal), if_neg (not_not.mpr hbprec)]
        rw [hbm]
        unfold Astratto.mancanti
        rw [if_neg (not_not.mpr hz)]
        split
        · omega
        · rename_i hp
          exact (hdavanti (not_not.mp hp) hbprec).2 (Or.inr hr)
      · have ham : a.mancanti q = MAXPROCS + 1 := if_pos hz
        omega
    exact ⟨by omega, fun _ => hmeno⟩
  · have hprec : b.prec q = a.prec q := h.prec_eq hI hv fun e => absurd e hr
    have htotal : (b.dati q).tickTotal = (a.dati q).tickTotal :=
      (h.tickTotal_cases hr hv).resolve_right fun hs => hcorre hs.1
    refine ⟨?_, fun e => absurd e hr⟩
    unfold Astratto.mancanti
    rw [htotal, hprec, hbase]
    split
    · exact le_rfl
    · split
      · exact le_rfl
      · rename_i hp
        have ha := not_not.mp hp
        exact (hdavanti ha (hprec.trans (ha.trans hbase.symm))).1

/-! ## Who is always in the race -/

/-- The moves after which a process may be in the race that was not before. -/
def Atto.Apre : Atto → Prop
  | .attiva _ _ | .sveglia _ _ | .cede _ _ _ | .orologio => True
  | _ => False

theorem Astratto.inGara_schedulatore (h : InGara p c.schedulatore) : InGara p c := by
  cases hc : c.pronti with
  | nil =>
    have hs : c.schedulatore = c := by simp [schedulatore, hc]
    rwa [hs] at h
  | cons r l =>
    refine Or.inr ?_
    rw [hc]
    rcases h with he | hp
    · rw [esecuzione_schedulatore hc] at he
      exact List.mem_cons.mpr (Or.inl (Option.some.inj he).symm)
    · rw [pronti_schedulatore hc] at hp
      exact List.mem_cons_of_mem r hp

theorem Astratto.inGara_accoda (he : c.esecuzione = some q) (h : InGara p (c.accoda q)) :
    InGara p c := by
  rcases h with he' | hp
  · exact Or.inl he'
  · rcases mem_insertByKey.mp hp with rfl | hp
    · exact Or.inl he
    · exact Or.inr hp

theorem Astratto.inGara_reschedule (h : InGara p c.reschedule) : InGara p c := by
  rcases h with he | hp
  · rw [esecuzione_reschedule] at he
    exact Or.inl he
  · exact Or.inr ((sortByKey_perm _ _).mem_iff.mp hp)

theorem Mossa.inGara_prima (h : Mossa a t b) (ht : ¬ t.Apre) (hp : InGara p b) : InGara p a := by
  cases h with
  | parte he => exact inGara_schedulatore hp
  | attiva r d he hfree hstato htick htotal hbase hmask hgestori => exact absurd trivial ht
  | termina r he hr =>
    have h : InGara p ((a.aggiorna r DesProc.libero).setProcCount (int32 (a.procCount - 1))) :=
      inGara_schedulatore hp
    exact h
  | blocca i r he hr hc =>
    have h : InGara p ((a.setCount i (int32 ((a.sem i).count - 1))).setCoda i
        (insertByKey a.prec r (a.sem i).coda)) := inGara_schedulatore hp
    exact h
  | sveglia i r q l he hc hq hprec => exact absurd trivial ht
  | cede i r q l he hc hq hprec => exact absurd trivial ht
  | dorme d x he hr hx =>
    have h : InGara p (a.addormenta d x) := inGara_schedulatore hp
    exact h
  | orologio => exact absurd trivial ht
  | prelazione r he hr htick =>
    have h : InGara p (a.setRescheduler (int32 (a.rescheduler + 1))) :=
      inGara_accoda he (inGara_schedulatore hp)
    exact h
  | rischedula r he hr =>
    have h : InGara p ((a.setRescheduler 0).aggiorna r DesProc.addebitato) :=
      inGara_accoda he (inGara_reschedule (inGara_schedulatore hp))
    exact h
  | _ => exact hp

/-- A process that gives up the CPU is not in the race. -/
theorem Inv.inGara_lascia (hI : Inv a) (he : a.esecuzione = some p) (hp : p ≠ Pitos.idle)
    (hc : c.pronti = a.pronti) : ¬ InGara p c.schedulatore := by
  have hno := not_mem_pronti (hI.inCoda_esecuzione he)
  obtain ⟨r, l, hr⟩ := List.exists_cons_of_ne_nil (hI.pronti_ne_nil he hp)
  rintro (he' | hp')
  · exact hI.schedulatore_ne he hp hc he'
  · rw [pronti_schedulatore (hc.trans hr)] at hp'
    rw [hr] at hno
    exact hno (List.mem_cons_of_mem r hp')

/-- The scheduler does not choose `q` while a process of strictly better priority is ready. -/
theorem Ordinato.pronto_schedulatore (hO : Ordinato c) (hp : p ∈ c.pronti) (hq : q ∈ c.pronti)
    (hprec : c.prec p < c.prec q) : q ∈ c.schedulatore.pronti := by
  obtain ⟨r, l, hr⟩ := List.exists_cons_of_ne_nil (List.ne_nil_of_mem hp)
  have hle : c.prec r ≤ c.prec p := Sorted.head_le hO (by rw [hr]; rfl) hp
  rw [pronti_schedulatore hr]
  rw [hr] at hq
  refine (List.mem_cons.mp hq).resolve_left ?_
  intro e
  rw [e] at hprec
  omega

/-- While `p` is in the race, no process of strictly worse priority gets the CPU. -/
theorem Mossa.superato (h : Mossa a t b) (hI : Inv a) (hO : Ordinato a) (hp : InGara p a)
    (hp' : InGara p b) (hq : q ∈ a.pronti) (hprec : a.prec p < a.prec q)
    (hprec' : b.prec p < b.prec q) : q ∈ b.pronti := by
  have hlascia : ∀ {c : Astratto} {r : Pid}, a.esecuzione = some r → r ≠ idle →
      c.pronti = a.pronti → c.prec = a.prec → InGara p c.schedulatore →
      q ∈ c.schedulatore.pronti := by
    intro c r he hr hc hkey hs
    have hmem : p ∈ a.pronti := hp.resolve_left fun he' => by
      obtain rfl := Option.some.inj (he'.symm.trans he)
      exact hI.inGara_lascia he hr hc hs
    refine Ordinato.pronto_schedulatore (hO.congr hkey hc) (hc ▸ hmem) (hc ▸ hq) ?_
    rw [hkey]
    exact hprec
  cases h with
  | parte he =>
    have hmem : p ∈ a.pronti := hp.resolve_left fun he' => by
      rw [he] at he'
      cases he'
    exact hO.pronto_schedulatore hmem hq hprec
  | attiva r d he hfree hstato htick htotal hbase hmask hgestori =>
    exact mem_insertByKey.mpr (Or.inr hq)
  | termina r he hr =>
    exact hlascia he hr rfl (prec_aggiorna (a := a) DesProc.libero fun _ => rfl) hp'
  | blocca i r he hr hc => exact hlascia he hr rfl rfl hp'
  | sveglia i r q' l he hc hq' hprec => exact mem_insertByKey.mpr (Or.inr hq)
  | cede i r q' l he hc hq' hprec => exact mem_insertByKey.mpr (Or.inr hq)
  | dorme d x he hr hx => exact hlascia he hr rfl rfl hp'
  | orologio =>
    rw [Astratto.orologio, svegliaTutti_eq]
    exact (fillByKey_perm _ _ _).mem_iff.mpr (List.mem_append_right _ hq)
  | prelazione r he hr ht =>
    have hO' : Ordinato (a.setRescheduler (int32 (a.rescheduler + 1))) := hO
    refine hO'.accoda.pronto_schedulatore (p := p) (mem_insertByKey.mpr ?_)
      (mem_insertByKey.mpr (Or.inr hq)) hprec
    rcases hp with he' | hp
    · exact Or.inl (Option.some.inj (he'.symm.trans he))
    · exact Or.inr hp
  | rischedula r he hr =>
    rw [prec_schedulatore] at hprec'
    refine (Ordinato.reschedule _).pronto_schedulatore (p := p)
      ((sortByKey_perm _ _).mem_iff.mpr (mem_insertByKey.mpr ?_))
      ((sortByKey_perm _ _).mem_iff.mpr (mem_insertByKey.mpr (Or.inr hq))) hprec'
    rcases hp with he' | hp
    · exact Or.inl (Option.some.inj (he'.symm.trans he))
    · exact Or.inr hp
  | _ => exact hq

/-! ## The count of the ticks -/

/-- The count of the ticks until the next new priorities. -/
def Contato (a : Astratto) : Prop := 0 ≤ a.rescheduler ∧ a.rescheduler ≤ RESCHEDULER

theorem Mossa.rescheduler_turno (h : Mossa a t b) (ht : Turno t) (hc : Contato a) :
    t = .rischedula ∧ a.rescheduler = RESCHEDULER ∧ b.rescheduler = 0 ∨
      t ≠ .rischedula ∧ b.rescheduler = a.rescheduler + 1 ∧ b.rescheduler ≤ RESCHEDULER := by
  obtain ⟨h0, h1⟩ := hc
  have hmax : (RESCHEDULER : Int) = 50 := rfl
  have hsucc : int32 (a.rescheduler + 1) = a.rescheduler + 1 :=
    int32_of_range (by omega) (by simp only [INT_MAX]; omega)
  rcases ht with rfl | rfl | rfl
  · cases h with
    | prosegue p he hr htick =>
      rw [hsucc] at hr
      exact Or.inr ⟨by rintro ⟨⟩, hsucc, hsucc.trans_le hr⟩
  · cases h with
    | prelazione p he hr htick =>
      rw [hsucc] at hr
      exact Or.inr ⟨by rintro ⟨⟩, rescheduler_schedulatore.trans hsucc,
        (rescheduler_schedulatore.trans hsucc).trans_le hr⟩
  · cases h with
    | rischedula p he hr =>
      rw [hsucc] at hr
      refine Or.inl ⟨rfl, by omega, ?_⟩
      obtain ⟨d, l, hd⟩ := reschedule_eq
        (((a.setRescheduler 0).aggiorna p DesProc.addebitato).accoda p)
      rw [rescheduler_schedulatore, hd]
      rfl

theorem Mossa.rescheduler_run {ts : List Atto} (h : Run Mossa a ts b) (ht : ∀ t ∈ ts, ¬ Turno t) :
    b.rescheduler = a.rescheduler := by
  induction h with
  | nil => rfl
  | cons hm _ ih =>
    rw [ih fun t h => ht t (List.mem_cons_of_mem _ h)]
    exact hm.rescheduler_eq (ht _ List.mem_cons_self)

theorem Mossa.contato (h : Mossa a t b) (hc : Contato a) : Contato b := by
  by_cases ht : Turno t
  · rcases h.rescheduler_turno ht hc with ⟨-, -, h0⟩ | ⟨-, h1, h2⟩
    · exact ⟨h0.ge, by rw [h0]; decide⟩
    · exact ⟨by have := hc.1; omega, h2⟩
  · unfold Contato
    rw [h.rescheduler_eq ht]
    exact hc

/-! ## How far behind a process gets -/

theorem int32_inj {x y : Int} (hx : 0 ≤ x) (hx' : x ≤ INT_MAX) (hy : 0 ≤ y) (hy' : y ≤ INT_MAX)
    (h : int32 x = int32 y) : x = y := by
  rwa [int32_of_range (by omega) hx', int32_of_range (by omega) hy'] at h

theorem Contenuti.conto (hC : Contenuti n a) (hQ : Quanti (QUANTUM + 1) a) (hq : q ∈ a.vivi) :
    0 ≤ a.conto q ∧ a.conto q ≤ n + QUANTUM + 1 := by
  obtain ⟨h0, h1⟩ := hQ.pochi (by decide) q
  have := (hC q hq).nonneg
  have := (hC q hq).total
  unfold Astratto.conto
  omega

/-- A process in the race does not wait at a semaphore. -/
theorem Inv.inGara_coda (hI : Inv a) {i : Fin MAXSEMS} (hp : InGara p a) (hq : q ∈ (a.sem i).coda) :
    p ≠ q := by
  rintro rfl
  rcases hp with he | hp
  · have := presenze_pos_of_coda hq
    have := hI.inCoda_esecuzione he
    omega
  · exact hI.separati.pronti_coda hp hq

/-- A handoff does not charge the process that had the CPU. -/
theorem Mossa.conto_cede {i : Fin MAXSEMS} {r : Pid} (h : Mossa a (.cede i q r) b) (hI : Inv a)
    (hQ : Quanti (QUANTUM + 1) a) (hp : InGara p a) : b.conto p ≤ a.conto p := by
  obtain ⟨h0, -⟩ := hQ.pochi (by decide) p
  cases h with
  | cede _ _ _ l he hc hr hprec =>
    have hne : p ≠ r := hI.inGara_coda (i := i) hp (by rw [hr]; exact List.mem_cons_self)
    let c := (((a.setCount i (int32 ((a.sem i).count + 1))).setCoda i l).accoda q).setEsecuzione
      (some r)
    have htotal := campo_aggiorna (p := r) (a := c) DesProc.tickTotal (f := DesProc.pronto) rfl p
    unfold Astratto.conto
    rw [Astratto.sospesi_of_ne fun e => hne (Option.some.inj e).symm, htotal]
    show (a.dati p).tickTotal + 0 ≤ _
    omega

/-- Between the ticks the account of a process in the race does not grow. -/
theorem Mossa.conto_le (h : Mossa a t b) (hI : Inv a) (hQ : Quanti (QUANTUM + 1) a)
    (hQ' : Quanti (QUANTUM + 1) b) (hC : Contenuti n a) (hn : n ≤ LIMITE + 100) (hc : t ≠ .conta)
    (hr : t ≠ .rischedula) (hp : InGara p a) (hp' : InGara p b) : b.conto p ≤ a.conto p := by
  by_cases hcede : ∃ i q r, t = .cede i q r
  · obtain ⟨i, q, r, rfl⟩ := hcede
    exact h.conto_cede hI hQ hp
  · have hatt : ∀ k, t ≠ .attiva p k := by
      rintro k rfl
      have hv := hI.inGara_vivi hp
      cases h with
      | attiva _ d he hfree hstato htick htotal hbase hmask hgestori =>
        exact mem_vivi.mp hv hfree
    have hmod := h.conto hatt hc hr fun i q r e => absurd ⟨i, q, r, e⟩ hcede
    have ha := hC.conto hQ (hI.inGara_vivi hp)
    have hb := (h.contenuti hI hQ hC hn fun e => absurd e hr).conto hQ' ((h.inv hI).inGara_vivi hp')
    simp only [QUANTUM, LIMITE] at ha hb hn
    refine (int32_inj hb.1 ?_ ha.1 ?_ hmod).le
    · simp only [INT_MAX]
      omega
    · simp only [INT_MAX]
      omega

/-- What `p` is charged for since the last new priorities, `k` ticks of the present interrupt
included; and how far behind the last ones put it. -/
structure Grava (p : Pid) (k : Int) (a : Astratto) : Prop where
  conto : a.conto p ≤ QUANTUM + 1 + a.rescheduler + k
  prec : a.prec p ≤ (a.dati p).baseprec + 6

section Grava

variable (hI : Inv a) (hQ : Quanti (QUANTUM + 1) a) (hQ' : Quanti (QUANTUM + 1) b)
  (hC : Contenuti n a) (hn : n ≤ LIMITE + 100) (hp : InGara p a) (hp' : InGara p b) {k : Int}

include hI hp in
theorem Mossa.grava_prec (h : Mossa a t b) (hr : t ≠ .rischedula) (hG : Grava p k a) :
    b.prec p ≤ (b.dati p).baseprec + 6 := by
  have hv := hI.inGara_vivi hp
  rw [h.prec_eq hI hv fun e => absurd e hr, h.baseprec_eq hI hv]
  exact hG.prec

include hI hQ hQ' hC hn hp hp' in
theorem Mossa.grava (h : Mossa a t b) (hc : t ≠ .conta) (ht : ¬ Turno t) (hG : Grava p k a) :
    Grava p k b := by
  have hr : t ≠ .rischedula := fun e => ht (Or.inr (Or.inr e))
  refine ⟨?_, h.grava_prec hI hp hr hG⟩
  rw [h.rescheduler_eq ht]
  exact (h.conto_le hI hQ hQ' hC hn hc hr hp hp').trans hG.conto

include hI hQ hQ' hC hn hp hp' in
theorem Mossa.grava_conta (h : Mossa a .conta b) (hG : Grava p 0 a) : Grava p 1 b := by
  have hr : Atto.conta ≠ .rischedula := by rintro ⟨⟩
  refine ⟨?_, h.grava_prec hI hp hr hG⟩
  have hmod := h.conto_conta p
  have ha := hC.conto hQ (hI.inGara_vivi hp)
  have hb := (h.contenuti hI hQ hC hn fun e => absurd e hr).conto hQ' ((h.inv hI).inGara_vivi hp')
  have hconto := hG.conto
  rw [h.rescheduler_eq (by simp [Turno])]
  simp only [QUANTUM, LIMITE] at ha hb hn hconto ⊢
  have hone : (0 : Int) ≤ (if a.esecuzione = some p then 1 else 0) ∧
      (if a.esecuzione = some p then 1 else 0) ≤ (1 : Int) := by
    split <;> exact ⟨by decide, by decide⟩
  have heq := int32_inj hb.1 (by simp only [INT_MAX]; omega) (by omega)
    (by simp only [INT_MAX]; omega) hmod
  omega

include hI hQ hQ' hC hn hp hp' in
/-- The end of a tick. New priorities put a process back by six at most: it is charged for the
ticks of one period, and for those of its last quantum twice. -/
theorem Mossa.grava_turno (h : Mossa a t b) (ht : Turno t) (hcount : Contato a)
    (hM : t = .rischedula → Moderato (a.dati p)) (hG : Grava p 1 a) : Grava p 0 b := by
  have hconto := hG.conto
  rcases h.rescheduler_turno ht hcount with ⟨rfl, ha, hb⟩ | ⟨hr, hb, -⟩
  · obtain ⟨hprec, htotal, h0, -⟩ := h.rischedula_prec hI hQ hC hn (hM rfl) hp
    obtain ⟨hs, hs'⟩ := hQ.pochi (by decide) p
    have hz : b.sospesi p = 0 := by
      cases h with
      | rischedula q he hr =>
        exact Astratto.sospesi_schedulatore (pronti_reschedule_ne_nil pronti_accoda_ne_nil) p
    rw [Int.tdiv_eq_ediv_of_nonneg h0] at hprec
    rw [ha] at hconto
    simp only [QUANTUM, RESCHEDULER] at hconto hs'
    constructor
    · unfold Astratto.conto
      rw [htotal, hz, hb]
      simp only [QUANTUM]
      omega
    · rw [hprec, h.baseprec_eq hI (hI.inGara_vivi hp)]
      omega
  · have hc : t ≠ .conta := by
      rintro rfl
      simp [Turno] at ht
    refine ⟨?_, h.grava_prec hI hp hr hG⟩
    have := h.conto_le hI hQ hQ' hC hn hc hr hp hp'
    rw [hb]
    omega

end Grava

end Pitos
