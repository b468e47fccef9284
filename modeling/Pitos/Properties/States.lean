import Pitos.Abstract.States
import Pitos.Properties.Placement
import Pitos.Properties.Start

/-!
# The field `stato`

The field says where a process is as long as nobody blocks, nobody sleeps, no process is
overtaken at the end of its quantum and no signal takes a process from an empty queue; the first
entry that does one of these makes it wrong (`stato_veritiero`). `BLOCCATO` is assigned nowhere,
and `cdriver_t` and `ki_sem_signal` put the process that loses the CPU into `pronti` without
`p->stato = PRONTO`, which the other paths write. The handoff to a waiter is among them, but
there somebody has blocked before. In the runs the idle process lives.
-/

namespace Pitos

open Lib

/-- The field tells the truth about every descriptor. -/
def Veritiero (s : Kernel) : Prop :=
  ∃ L : s.Luoghi, ∀ p,
    ((s.des (some p)).stato = .RUNNING ↔ s.esecuzione = some p) ∧
    ((s.des (some p)).stato = .PRONTO ↔ p ∈ L.pronti) ∧
    ((s.des (some p)).stato = .BLOCCATO ↔
      (∃ i, p ∈ L.code i) ∨ ∃ z ∈ L.timer, (s.ric z).proc = some p) ∧
    ((s.des (some p)).stato = .FREE ↔ L.volte p = 0)

/-- The current process is at the end of its quantum, no new priorities are due, and another
ready process is not behind it. -/
def Scavalcato (s : Kernel) : Prop :=
  ∃ p q, s.esecuzione = some p ∧ ¬ (s.des (some p)).Muore ∧
    int32 (s.rescheduler + 1) ≤ RESCHEDULER ∧ QUANTUM < int32 ((s.des (some p)).tick + 1) ∧
    s.InPronti q ∧ s.prec q ≤ s.prec p

/-- Nobody blocks, nobody sleeps, nobody is overtaken at the end of its quantum, and no signal
gives the CPU to nobody. -/
def Sincero (s : Kernel) : Evento → Prop
  | .chiamata (.semWait hsem) =>
    ∀ i, maniglia hsem = some i → 0 ≤ int32 ((s.dessem i).count - 1)
  | .chiamata (.semSignal hsem) => ¬ SvegliaNessuno s hsem
  | .chiamata (.delay ..) => False
  | .tick => ¬ Scavalcato s
  | _ => True

variable {s t : Kernel} {a b : Astratto} {ts sig : List Atto} {p q : Pid} {e : Evento}

/-- What the entries keep. -/
structure Marcato (a : Astratto) : Prop where
  ordinato : Ordinato a
  mai : MaiBloccato a
  vero : Vero a

/-- The moves that make nobody wait and overtake nobody. -/
def Atto.Innocuo (t : Atto) : Prop :=
  (∀ i p, t ≠ .blocca i p) ∧ (∀ d x, t ≠ .dorme d x) ∧ t ≠ .prelazione

theorem Marcato.run (h : Marcato a) (hr : Run Mossa a ts b) (hI : Inv a)
    (ht : ∀ t ∈ ts, t.Innocuo) : Marcato b := by
  induction hr with
  | nil => exact h
  | cons hm _ ih =>
    obtain ⟨hblocca, hdorme, hprel⟩ := ht _ List.mem_cons_self
    refine ih ⟨hm.ordinato hI h.ordinato, hm.maiBloccato hI h.mai,
      hm.vero hI h.vero hblocca hdorme fun e => absurd e hprel⟩ (hm.inv hI) fun t ht' => ?_
    exact ht t (List.mem_cons_of_mem _ ht')

theorem Iniziale.marcato (h : Iniziale a) : Marcato a := by
  have hstato : ∀ p, (a.dati p).stato = if p = idle then .PRONTO else .FREE := by
    intro p
    split
    · rename_i hp
      rw [hp, h.idleVivo]
    · rename_i hp
      exact h.liberi p hp
  refine ⟨?_, fun p => ?_, fun p => ?_, fun p => ?_, h.coda, h.sonno⟩
  · unfold Ordinato
    rw [h.pronti]
    exact List.pairwise_singleton _ _
  · rw [hstato]
    split <;> rintro ⟨⟩
  · rw [hstato, h.esecuzione]
    split <;> simp
  · rw [hstato, h.pronti, List.mem_singleton]
    split
    · rename_i hp
      exact ⟨fun _ => hp, fun _ => rfl⟩
    · rename_i hp
      exact ⟨fun h => (by cases h), fun h => absurd h hp⟩

theorem Segnali.innocuo (h : Segnali sig) : ∀ t ∈ sig, t.Innocuo := by
  rcases h with rfl | rfl | ⟨p, -, rfl⟩ <;> simp [Atto.Innocuo]

/-! ## The end of a quantum -/

/-- A process that is not killed at the tick: its turn is decided by what was there before. -/
theorem conta_turno (hr : Run Mossa a (.conta :: sig) b) (hsig : Segnali sig)
    (he : a.esecuzione = some p) (hno : sig ≠ [.dati, .termina p]) :
    b.esecuzione = some p ∧ b.pronti = a.pronti ∧ b.prec = a.prec ∧
      b.rescheduler = a.rescheduler ∧ (b.dati p).tick = int32 ((a.dati p).tick + 1) := by
  obtain ⟨d, hd, rfl⟩ := hsig.conta hr he hno
  refine ⟨he, rfl, ?_, rfl, ?_⟩
  · funext q
    by_cases hq : q = p
    · subst hq
      rw [Astratto.prec, Astratto.dati_aggiorna, Function.update_self]
      exact hd.prec
    · rw [Astratto.prec, Astratto.dati_aggiorna, Function.update_of_ne hq]
      rfl
  · rw [Astratto.dati_aggiorna, Function.update_self]
    exact hd.tick

/-- A process that gets the CPU after another has been killed has a new quantum. -/
theorem conta_ucciso (hr : Run Mossa a [.conta, .dati, .termina p] b) (hI : Inv a) :
    ∃ r, b.esecuzione = some r ∧ (b.dati r).tick = 0 := by
  cases hr with
  | cons hm₁ hrest =>
    cases hrest with
    | cons hm₂ hrest =>
      cases hrest with
      | cons hm₃ hnil =>
        cases hnil
        exact hm₃.termina_tick (hm₂.inv (hm₁.inv hI))

theorem Rappr.scavalcato_iff (hR : Rappr s a) (he : a.esecuzione = some p) :
    Scavalcato s ↔ ¬ (a.dati p).Muore ∧ int32 (a.rescheduler + 1) ≤ RESCHEDULER ∧
      QUANTUM < int32 ((a.dati p).tick + 1) ∧ ∃ q ∈ a.pronti, a.prec q ≤ a.prec p := by
  have hmuore : (s.des (some p)).Muore ↔ (a.dati p).Muore := by
    rw [← hR.dati p]
    rfl
  have hesec : s.esecuzione = some p := hR.esecuzione.trans he
  have hprec : ∀ r, s.prec r = a.prec r := hR.prec
  constructor
  · rintro ⟨p', q, hp', hm, hresc, htick, hq, hpq⟩
    obtain rfl := Option.some.inj (hesec.symm.trans hp')
    rw [hmuore] at hm
    rw [hR.rescheduler] at hresc
    rw [hR.tick] at htick
    rw [hprec, hprec] at hpq
    exact ⟨hm, hresc, htick, q, hR.inPronti_iff.mp hq, hpq⟩
  · rintro ⟨hm, hresc, htick, q, hq, hpq⟩
    refine ⟨p, q, hesec, fun h => hm (hmuore.mp h), ?_, ?_, hR.inPronti_iff.mpr hq, ?_⟩
    · rwa [hR.rescheduler]
    · rwa [hR.tick]
    · rwa [hprec, hprec]

/-- A tick keeps the marks if and only if it overtakes nobody. -/
theorem Rappr.tick_marcato (hR : Rappr s a) (hA : Regolare a) (hM : Marcato a)
    (heq : passo s .tick = .ok t) (hv : t.Vivo idle) :
    ∃ b, Rappr t b ∧ Regolare b ∧ (¬ Scavalcato s → Marcato b) ∧
      (Scavalcato s → ∃ p ∈ b.pronti, (b.dati p).stato = .RUNNING) := by
  obtain ⟨p, he⟩ := Option.ne_none_iff_exists'.mp hA.attivo
  obtain ⟨s₁, s₂, s₃, sig, u, a₂, b, -, -, -, hsig, hmuore, hu, -, hrun, -, hA₂, hm, -, -, hRt, hAb⟩ :=
    hR.tick_mosse hA he heq hv
  rw [hM.vero.orologio] at hrun
  have hM₂ : Marcato a₂ := hM.run hrun hA.inv fun x hx => by
    rcases List.mem_cons.mp hx with rfl | hx
    · simp [Atto.Innocuo]
    · exact hsig.innocuo x hx
  refine ⟨b, hRt, hAb, fun hno => ?_, fun hsi => ?_⟩
  · refine ⟨hm.ordinato hA₂.inv hM₂.ordinato, hm.maiBloccato hA₂.inv hM₂.mai,
      hm.vero hA₂.inv hM₂.vero ?_ ?_ ?_⟩
    · rcases hu with rfl | rfl | rfl <;> rintro _ _ ⟨⟩
    · rcases hu with rfl | rfl | rfl <;> rintro _ _ ⟨⟩
    rintro rfl ⟨r, q, hr, hq, hqr⟩
    cases hm with
    | prelazione r' hr' hresc htick =>
      obtain rfl := Option.some.inj (hr.symm.trans hr')
      by_cases hkill : sig = [.dati, .termina p]
      · subst hkill
        obtain ⟨r'', hr'', h0⟩ := conta_ucciso hrun hA.inv
        obtain rfl := Option.some.inj (hr.symm.trans hr'')
        rw [h0] at htick
        exact absurd htick (by decide)
      · obtain ⟨he₂, hpronti, hprec, hresched, htick₂⟩ := conta_turno hrun hsig he hkill
        obtain rfl := Option.some.inj (hr.symm.trans he₂)
        rw [hresched] at hresc
        rw [htick₂] at htick
        rw [hpronti] at hq
        rw [hprec] at hqr
        exact hno ((hR.scavalcato_iff he).mpr
          ⟨fun h => hkill (hmuore.mpr h), hresc, htick, q, hq, hqr⟩)
  · obtain ⟨hm', hresc, htick, q, hq, hqp⟩ := (hR.scavalcato_iff he).mp hsi
    have hkill : sig ≠ [.dati, .termina p] := fun h => hm' (hmuore.mp h)
    obtain ⟨he₂, hpronti, hprec, hresched, htick₂⟩ := conta_turno hrun hsig he hkill
    rw [← hresched] at hresc
    rw [← htick₂] at htick
    rw [← hpronti] at hq
    rw [← hprec] at hqp
    have hno : p ∉ a₂.pronti := not_mem_pronti (hA₂.inv.inCoda_esecuzione he₂)
    cases hm with
    | prelazione r hr hresc' htick' =>
      obtain rfl := Option.some.inj (he₂.symm.trans hr)
      obtain ⟨r, l, hrl⟩ := List.exists_cons_of_ne_nil
        (Astratto.pronti_accoda_ne_nil (p := p) (a := a₂.setRescheduler (int32 (a₂.rescheduler + 1))))
      have hne : p ≠ r := by
        rintro rfl
        refine hno (List.mem_of_mem_head? ?_)
        apply (head_insertByKey hM₂.ordinato hq hqp).symm.trans
        exact congrArg List.head? hrl
      refine ⟨p, ?_, ?_⟩
      · rw [Astratto.pronti_schedulatore hrl]
        have hmem : p ∈ ((a₂.setRescheduler (int32 (a₂.rescheduler + 1))).accoda p).pronti :=
          mem_insertByKey.mpr (Or.inl rfl)
        rw [hrl] at hmem
        exact (List.mem_cons.mp hmem).resolve_left hne
      · rw [stato_avviato hrl, if_neg hne]
        exact (hM₂.vero.running p).mpr he₂
    | prosegue r hr hresc' htick' =>
      obtain rfl := Option.some.inj (he₂.symm.trans hr)
      omega
    | rischedula r hr hresc' => omega
    | _ => rcases hu with hu | hu | hu <;> cases hu

/-! ## The entries -/

theorem Traccia.innocuo (h : Traccia s p e ts) (hR : Rappr s a) (he : Sincero s e)
    (ht : e ≠ .tick) (hr : Run Mossa a ts b) : ∀ t ∈ ts, t.Innocuo := by
  cases e with
  | chiamata c =>
    obtain ⟨u, sig, hu, hsig, rfl⟩ := h
    intro x hx
    rcases List.mem_cons.mp hx with rfl | hx
    · cases c with
      | semWait hsem =>
        simp only [Compie] at hu
        split at hu
        · subst hu
          simp [Atto.Innocuo]
        · rename_i i hi
          rcases hu with rfl | rfl
          · simp [Atto.Innocuo]
          · -- the wait would block
            have hc := he i hi
            rw [hR.count] at hc
            cases hr with
            | cons hm _ =>
              cases hm with
              | blocca _ _ _ _ hlt => omega
      | delay n z => exact absurd he id
      | semIni valore idx risu =>
        simp only [Compie] at hu
        split at hu <;> subst hu <;> simp [Atto.Innocuo]
      | semSignal hsem =>
        simp only [Compie] at hu
        split at hu
        · subst hu
          simp [Atto.Innocuo]
        · rcases hu with rfl | ⟨r, rfl | rfl⟩ <;> simp [Atto.Innocuo]
      | activateP f k prec idx risu stk =>
        rcases hu with rfl | ⟨r, rfl⟩ <;> simp [Atto.Innocuo]
      | _ =>
        subst hu
        simp [Atto.Innocuo]
    · exact hsig.innocuo x hx
  | chiamataErrata =>
    obtain rfl := show ts = [] from h
    simp
  | tick => exact absurd rfl ht
  | tasto code =>
    rw [show ts = _ from h]
    split
    · split <;> simp [Atto.Innocuo]
    · simp
  | eccezione =>
    rw [show ts = [.termina p] from h]
    simp [Atto.Innocuo]
  | ritorno => exact absurd h id

/-- An entry that makes nobody wait and overtakes nobody keeps the marks. -/
theorem Rappr.sincero (hR : Rappr s a) (hA : Regolare a) (hM : Marcato a) (hposs : Possibile s e)
    (hv : t.Vivo idle) (hs : Sincero s e) (heq : passo s e = .ok t) :
    ∃ b, Rappr t b ∧ Regolare b ∧ Marcato b := by
  by_cases ht : e = .tick
  · subst ht
    obtain ⟨b, hRt, hAb, hb, -⟩ := hR.tick_marcato hA hM heq hv
    exact ⟨b, hRt, hAb, hb hs⟩
  · obtain ⟨p, ts, b, he, hts, hrun, hRt, hAb⟩ := hR.mosse hA hposs heq hv
    exact ⟨b, hRt, hAb, hM.run hrun hA.inv (hts.innocuo hR hs ht hrun)⟩

/-! ## The field in the kernel -/

theorem Rappr.veritiero (hR : Rappr s a) (hI : Inv a) (hM : Marcato a) : Veritiero s := by
  refine ⟨hR.luoghi, fun p => ?_⟩
  rw [hR.stato, hR.esecuzione, hR.volte_luoghi]
  refine ⟨hM.vero.running p, hM.vero.pronto p, ⟨fun h => absurd h (hM.mai p), ?_⟩,
    ⟨hI.presenze_of_free, fun h => ?_⟩⟩
  · rintro (⟨i, hi⟩ | ⟨z, hz, -⟩)
    · have hi' : p ∈ (a.sem i).coda := hi
      rw [hM.vero.code i] at hi'
      cases hi'
    · have hz' : z ∈ a.sonno.map fun r => r.1.1 := hz
      rw [hM.vero.sonno] at hz'
      cases hz'
  · cases hst : (a.dati p).stato with
    | FREE => rfl
    | BLOCCATO => exact absurd hst (hM.mai p)
    | RUNNING => simp [Astratto.presenze, (hM.vero.running p).mp hst] at h
    | PRONTO =>
      have := Astratto.presenze_pos_of_pronti ((hM.vero.pronto p).mp hst)
      unfold Astratto.presenze at h
      omega

/-- A waiting process is not marked as such. -/
theorem Rappr.non_veritiero (hR : Rappr s a) (hB : MaiBloccato a)
    (h : (∃ i, p ∈ (a.sem i).coda) ∨ ∃ r ∈ a.sonno, r.1.2 = p) : ¬ Veritiero s := by
  rintro ⟨L, hL⟩
  apply hB p
  rw [← hR.stato]
  apply (hL p).2.2.1.mpr
  rcases h with ⟨i, hi⟩ | ⟨r, hr, rfl⟩
  · exact Or.inl ⟨i, (L.code_linked i).unique (hR.coda i) ▸ hi⟩
  · refine Or.inr ⟨r.1.1, L.timer_linked.unique hR.timer ▸ ?_, hR.proc r hr⟩
    exact List.mem_map_of_mem hr

/-- Signal handling wakes nobody. -/
theorem Segnali.attese (h : Segnali sig) (hr : Run Mossa a sig b) :
    b.sem = a.sem ∧ b.sonno = a.sonno := by
  have hdati : ∀ {c d : Astratto}, Mossa c .dati d → d.sem = c.sem ∧ d.sonno = c.sonno := fun hm => by
    cases hm with
    | dati p d he hp h => exact ⟨rfl, rfl⟩
  rcases h with rfl | rfl | ⟨p, -, rfl⟩
  · cases hr
    exact ⟨rfl, rfl⟩
  · cases hr with
    | cons hm hnil =>
      cases hnil
      exact hdati hm
  · cases hr with
    | cons hm hrest =>
      cases hrest with
      | cons hm' hnil =>
        cases hnil
        have h₁ := hdati hm
        cases hm' with
        | termina _ he hp =>
          exact ⟨Astratto.sem_schedulatore.trans h₁.1, Astratto.sonno_schedulatore.trans h₁.2⟩

/-- A signal that gives the CPU to nobody leaves its caller in `pronti`, marked as running. -/
theorem Rappr.svegliaNessuno {hsem : Int} (hR : Rappr s a) (hI : Inv a) (hM : Marcato a)
    (he : a.esecuzione = some p) (h : SvegliaNessuno s hsem) :
    ∃ u, esegui (.semSignal hsem) s = .ok u ∧ u.esecuzione = none ∧ ¬ Veritiero u := by
  obtain ⟨i, hi, hc, hcoda, hprec⟩ := h
  have hempty : (a.sem i).coda = [] := by
    have hl := hR.coda i
    rw [hcoda] at hl
    exact Linked.none_iff.mp hl
  have hv : SegnaleVuoto a (.semSignal hsem) := ⟨i, hi, hR.count i ▸ hc, hempty⟩
  rw [hR.esecuzione, he] at hprec
  obtain ⟨u, hu, ⟨hnone, hstato⟩ | ⟨hlt, -⟩⟩ := hR.kiSemSignal_vuoto hI he hsem hv
  · refine ⟨u, hu, hnone, ?_⟩
    rintro ⟨L, hL⟩
    have hrun : (u.des (some p)).stato = .RUNNING := by
      rw [hstato, hR.stato]
      exact (hM.vero.running p).mpr he
    have hesec := (hL p).1.mp hrun
    rw [hnone] at hesec
    cases hesec
  · omega

/-- An entry that makes somebody wait, or overtakes somebody, makes the field wrong. -/
theorem Rappr.insincero (hR : Rappr s a) (hA : Regolare a) (hM : Marcato a) (hposs : Possibile s e)
    (hv : t.Vivo idle) (hs : ¬ Sincero s e) (heq : passo s e = .ok t) : ¬ Veritiero t := by
  have hbloc : ∀ {ts : List Atto} {b : Astratto}, Run Mossa a ts b → MaiBloccato b := fun hr =>
    (hr.invariant (I := fun c => Inv c ∧ MaiBloccato c)
      (fun _ _ _ ⟨hI, hB⟩ hm => ⟨hm.inv hI, hm.maiBloccato hI hB⟩) ⟨hA.inv, hM.mai⟩).2
  obtain ⟨p, ts, b, he, hts, hrun, hRt, hAb⟩ := hR.mosse hA hposs heq hv
  cases e with
  | chiamata c =>
    obtain ⟨u, sig, hu, hsig, rfl⟩ := hts
    have hB := hbloc hrun
    cases hrun with
    | cons hm hrest =>
      obtain ⟨hsem, hsonno⟩ := hsig.attese hrest
      cases c with
      | semSignal hsem =>
        -- the call comes to `signals_check` without a current process: it does not come back
        obtain ⟨u', hu', hnone, -⟩ := hR.svegliaNessuno hA.inv hM he (not_not.mp hs)
        obtain ⟨s₁, h₁, h₂⟩ := bind_ok heq
        obtain rfl := Except.ok.inj (hu'.symm.trans h₁)
        obtain ⟨s₂, h₂, h₃⟩ := bind_ok h₂
        exact absurd hnone (signalsCheck_ok h₂).1
      | semWait hsem' =>
        simp only [Sincero, not_forall] at hs
        obtain ⟨i, hi, hneg⟩ := hs
        simp only [Compie, hi] at hu
        rw [hR.count] at hneg
        refine hRt.non_veritiero hB (p := p) (Or.inl ⟨i, ?_⟩)
        rw [hsem]
        rcases hu with rfl | rfl
        · cases hm with
          | passa _ hc => exact absurd hc hneg
        · cases hm with
          | blocca _ _ he' hp hc =>
            rw [Astratto.sem_schedulatore, Astratto.coda_setCoda, if_pos rfl]
            exact mem_insertByKey.mpr (Or.inl rfl)
      | delay n z =>
        obtain rfl := show u = .dorme (n.tdiv 50) (z, p) from hu
        refine hRt.non_veritiero hB (p := p) (Or.inr ?_)
        rw [hsonno]
        cases hm with
        | dorme _ _ he' hp hx =>
          have hperm := Astratto.inserisciAttesa_perm (n.tdiv 50) (z, p) a.sonno
          have hmem : (z, p) ∈ (inserisciAttesa (n.tdiv 50) (z, p) a.sonno).map Prod.fst :=
            hperm.mem_iff.mpr List.mem_cons_self
          obtain ⟨r, hr, hrp⟩ := List.mem_map.mp hmem
          refine ⟨r, ?_, by rw [hrp]⟩
          rw [Astratto.sonno_schedulatore]
          exact hr
      | _ => exact absurd trivial hs
  | tick =>
    obtain ⟨b', hRt', -, -, hb⟩ := hR.tick_marcato hA hM heq hv
    obtain ⟨r, hr, hst⟩ := hb (not_not.mp hs)
    rintro ⟨L, hL⟩
    have hmem : r ∈ L.pronti := L.pronti_linked.unique hRt'.pronti ▸ hr
    have h1 := (hL r).2.1.mpr hmem
    rw [hRt'.stato, hst] at h1
    cases h1
  | _ => exact absurd trivial hs

/-- **The field `stato`.** It is right in every state of a run whose entries meet the condition;
an entry that does not makes it wrong, a signal that gives the CPU to nobody already before it
comes to `signals_check`. -/
theorem stato_veritiero (es : List Evento) (s : Kernel)
    (h : Raggiunge (fun s e => IdleVivo s e ∧ Sincero s e) es s) :
    Veritiero s ∧ ∀ e, Possibile s e → ¬ Sincero s e →
      (∀ t, passo s e = .ok t → t.Vivo idle → ¬ Veritiero t) ∧
      ∀ hsem, e = .chiamata (.semSignal hsem) →
        ∃ u, esegui (.semSignal hsem) s = .ok u ∧ ¬ Veritiero u := by
  have hinv : ∃ a, Rappr s a ∧ Regolare a ∧ Marcato a := by
    obtain ⟨s₀, hs₀, hrun⟩ := h
    obtain ⟨a, hR, hA, -, hM⟩ := hs₀.segue (J := Marcato) (fun _ ha => ha.marcato)
      fun a t b hI he hm hM => by
        refine ⟨hm.ordinato hI hM.ordinato, hm.maiBloccato hI hM.mai,
          hm.vero hI hM.vero ?_ ?_ ?_⟩
        · rintro i p rfl
          cases hm with
          | blocca _ _ he' _ _ =>
            rw [he] at he'
            cases he'
        · rintro d x rfl
          cases hm with
          | dorme _ _ he' _ _ =>
            rw [he] at he'
            cases he'
        · rintro - ⟨p, q, he', -⟩
          rw [he] at he'
          cases he'
    refine hrun.invariant (I := fun s => ∃ a, Rappr s a ∧ Regolare a ∧ Marcato a) ?_ ⟨a, hR, hA, hM⟩
    rintro s e t ⟨a, hR, hA, hM⟩ ⟨hposs, ⟨hv, hs⟩, heq⟩
    exact hR.sincero hA hM hposs (hv t heq) hs heq
  obtain ⟨a, hR, hA, hM⟩ := hinv
  refine ⟨hR.veritiero hA.inv hM, fun e hposs hs => ⟨fun t heq hv => ?_, ?_⟩⟩
  · exact hR.insincero hA hM hposs hv hs heq
  · rintro hsem rfl
    obtain ⟨⟨p, hesec, -⟩, -, -⟩ := hposs
    have he : a.esecuzione = some p := hR.esecuzione.symm.trans hesec
    obtain ⟨u, hu, -, hno⟩ := hR.svegliaNessuno hA.inv hM he (not_not.mp hs)
    exact ⟨u, hu, hno⟩

/-- What is enough, as a test: the quantum is not at its end, and a signal leaves the count
positive. -/
def presto (s : Kernel) : Evento → Bool
  | .chiamata (.semWait hsem) =>
    (maniglia hsem).all fun i => decide (0 ≤ int32 ((s.dessem i).count - 1))
  | .chiamata (.semSignal hsem) =>
    (maniglia hsem).all fun i => decide (0 < int32 ((s.dessem i).count + 1))
  | .chiamata (.delay ..) => false
  | .tick => s.esecuzione.all fun p => decide (int32 ((s.des (some p)).tick + 1) ≤ QUANTUM)
  | _ => true

theorem presto_sincero (h : presto s e = true) : Sincero s e := by
  unfold presto at h
  unfold Sincero
  split at h
  · intro i hi
    rw [hi] at h
    exact of_decide_eq_true h
  · apply not_svegliaNessuno
    intro i hi
    rw [hi] at h
    exact of_decide_eq_true h
  · cases h
  · rintro ⟨p, q, hp, -, -, htick, -⟩
    rw [hp] at h
    exact absurd (of_decide_eq_true h) (not_le.mpr htick)
  · trivial

/-- A process sets up a semaphore, passes it, leaves it and ends. -/
theorem stato_veritiero_corsa :
    ∃ s, Raggiunge (fun s e => IdleVivo s e ∧ Sincero s e)
      [.chiamata (.semIni 1 0x5020 0x5024), .chiamata (.semWait 19), .tick,
        .chiamata (.semSignal 19), .chiamata .terminateP] s ∧ Veritiero s := by
  obtain ⟨x, hx, -⟩ := Sistema.prova_raggiunge (B := fun _ => True)
    (G := fun x e => IdleVivo x.kernel e ∧ presto x.kernel e = true)
    [.attiva 0x7000 0 10 3 0x5010 0x5014 (pila 0x20000)]
    [.chiamata (.semIni 1 0x5020 0x5024), .chiamata (.semWait 19), .tick,
      .chiamata (.semSignal 19), .chiamata .terminateP] (fun _ => true) (by decide +kernel)
  have hs := hx.kernel (H := fun s e => IdleVivo s e ∧ Sincero s e) fun _ _ h =>
    ⟨h.1, presto_sincero h.2⟩
  exact ⟨x.kernel, hs, (stato_veritiero _ _ hs).1⟩

/-- A process sleeps: it is in the timer queue, and marked as running. -/
theorem stato_mendace :
    ∃ s, Raggiunge IdleVivo [.chiamata (.delay 100 1)] s ∧ s.esecuzione = some idle ∧
      (s.des (some 1)).stato = .RUNNING ∧ ¬ Veritiero s := by
  obtain ⟨x, hx, hP⟩ := Sistema.prova_raggiunge (B := fun _ => True)
    (G := fun x e => IdleVivo x.kernel e) [.attiva 0x7000 0 10 3 0x5010 0x5014 (pila 0x20000)]
    [.chiamata (.delay 100 1)]
    (fun x => x.kernel.esecuzione = some idle ∧ (x.kernel.des (some 1)).stato = .RUNNING)
    (by decide +kernel)
  obtain ⟨he, hst⟩ := of_decide_eq_true hP
  refine ⟨x.kernel, hx.kernel fun _ _ h => h, he, hst, ?_⟩
  rintro ⟨L, hL⟩
  have h1 := (hL 1).1.mp hst
  rw [he] at h1
  cases h1

end Pitos
