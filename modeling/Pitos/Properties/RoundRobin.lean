import Pitos.Abstract.Turns
import Pitos.Refinement.Execution

/-!
# Round robin

`turni`: between two entries the current process has not used more than its quantum; and while
some process that is not behind it is ready, a process that keeps the CPU sees `QUANTUM + 1`
ticks at most. The ticks in question are those of a stretch of the run (`Tratto`) in which the
same two processes stay where they are.

The ticks charged do not reach `QUANTUM + 1` between entries (`Quanti`), one more is charged at
each tick of a stretch (`Rappr.battito`), and none is taken back (`Rappr.avanza`), because a
new quantum is given by `schedulatore` only, which gives the CPU to the other process first
(`Mossa.scade`).
-/

namespace Pitos

open Lib

/-! ## What is said of a run -/

/-- A timer interrupt. -/
def Evento.battito : Evento → Bool
  | .tick => true
  | _ => false

/-- The number of timer interrupts. -/
def battiti (es : List Evento) : Nat := es.countP Evento.battito

/-- `p` has the CPU, and `q` is ready and not behind it. -/
structure Attesa (p q : Pid) (s : Kernel) : Prop where
  esecuzione : s.esecuzione = some p
  pronto : s.InPronti q
  prec : s.prec q ≤ s.prec p

/-- The system call leaves its caller on the CPU. After a handoff the process that got the CPU
may be ended by a signal on the way out, and `p` be dispatched again. -/
def Tiene (p : Pid) (s : Kernel) : Evento → Prop
  | .chiamata c => ∀ t, esegui c s = .ok t → t.esecuzione = some p
  | _ => True

/-- An entry of a stretch in which `p` keeps the CPU while `q` is ready and not behind it. -/
structure Tratto (p q : Pid) (s : Kernel) (e : Evento) (t : Kernel) : Prop where
  avanza : Avanza IdleVivo s e t
  inizio : Attesa p q s
  fine : Attesa p q t
  tiene : Tiene p s e

/-! ## The quantum -/

/-- The order of the ready list and the bounds on the ticks, between entries. -/
structure Giro (a : Astratto) : Prop where
  ordinato : Ordinato a
  quanti : Quanti QUANTUM a

theorem Iniziale.giro {a : Astratto} (h : Iniziale a) : Giro a := by
  refine ⟨?_, fun p hp => ?_, fun i q hq => ?_⟩
  · unfold Ordinato
    rw [h.pronti]
    exact List.pairwise_singleton _ _
  · rw [h.esecuzione] at hp
    cases hp
  · rw [h.coda] at hq
    cases hq

section Mosse

variable {a b : Astratto} {t : Atto} {ts : List Atto} {p q : Pid}

theorem ordinato_run (h : Run Mossa a ts b) (hI : Inv a) (hO : Ordinato a) : Ordinato b :=
  (h.invariant (I := fun a => Inv a ∧ Ordinato a)
    (fun _ _ _ ⟨hI, hO⟩ hm => ⟨hm.inv hI, hm.ordinato hI hO⟩) ⟨hI, hO⟩).2

/-- Signal handling starts a new quantum or leaves the ticks as they are. -/
theorem Segnali.quanti {n : Int} (h : Segnali ts) (hr : Run Mossa a ts b) (hI : Inv a)
    (hn : QUANTUM ≤ n) (hQ : Quanti n a) : Quanti n b := by
  rcases h with rfl | rfl | ⟨p, hp, rfl⟩
  · cases hr
    exact hQ
  · cases hr with
    | cons hm hnil =>
      cases hnil
      exact hm.quanti hI hn hQ (by rintro ⟨⟩) (by rintro _ _ ⟨⟩)
  · cases hr with
    | cons hm hrest =>
      have hQ₁ := hm.quanti hI hn hQ (by rintro ⟨⟩) (by rintro _ _ ⟨⟩)
      cases hrest with
      | cons hm' hnil =>
        cases hnil
        exact hm'.quanti (hm.inv hI) hn hQ₁ (by rintro ⟨⟩) (by rintro _ _ ⟨⟩)

/-- It ends the current process, or leaves it on the CPU. -/
theorem Segnali.resta (h : Segnali ts) (hr : Run Mossa a ts b) (hI : Inv a)
    (he : a.esecuzione = some p) : p ∉ b.vivi ∨ Resta p 0 a b := by
  have hdati : ∀ {b : Astratto}, Mossa a .dati b → Resta p 0 a b := fun hm => by
    refine hm.resta hI he ?_ (by simp [Scade]) (by rintro ⟨⟩)
    cases hm with
    | dati r d her hr h => exact he
  rcases h with rfl | rfl | ⟨r, hr', rfl⟩
  · cases hr
    exact Or.inr (Resta.refl he)
  · cases hr with
    | cons hm hnil =>
      cases hnil
      exact Or.inr (hdati hm)
  · cases hr with
    | cons hm hrest =>
      cases hrest with
      | cons hm' hnil =>
        cases hnil
        have he₁ := (hdati hm).esecuzione
        have hvivi := hm'.vivi_eq (hm.inv hI)
        cases hm' with
        | termina _ her hrp =>
          obtain rfl := Option.some.inj (he₁.symm.trans her)
          rw [hvivi]
          simp [Atto.vivi]

/-- The parts of a tick. -/
theorem tick_parti (h : Rappr.Tick ts) (hr : Run Mossa a ts b) :
    ∃ a₁ a₂ a₃ sig t, Mossa a .orologio a₁ ∧ Mossa a₁ .conta a₂ ∧ Run Mossa a₂ sig a₃ ∧
      Mossa a₃ t b ∧ Segnali sig ∧ Turno t := by
  obtain ⟨sig, t, hsig, ht, rfl⟩ := h
  cases hr with
  | cons hm₁ hrest =>
    cases hrest with
    | cons hm₂ hrest =>
      obtain ⟨a₃, hsigr, hlast⟩ := hrest.split
      cases hlast with
      | cons hm₃ hnil =>
        cases hnil
        exact ⟨_, _, a₃, sig, t, hm₁, hm₂, hsigr, hm₃, hsig, ht⟩

/-- Every entry keeps the order and the bounds. -/
theorem Traccia.giro {s : Kernel} {e : Evento} (h : Traccia s p e ts) (hr : Run Mossa a ts b)
    (hI : Inv a) (hG : Giro a) : Giro b := by
  refine ⟨ordinato_run hr hI hG.ordinato, ?_⟩
  cases e with
  | chiamata c =>
    obtain ⟨t, sig, ht, hsig, rfl⟩ := h
    cases hr with
    | cons hm hrest =>
      have hQ := hm.quanti hI le_rfl hG.quanti ht.diChiamata.2.1 fun _ _ _ => rfl
      exact hsig.quanti hrest (hm.inv hI) le_rfl hQ
  | chiamataErrata =>
    obtain rfl := show ts = [] from h
    cases hr
    exact hG.quanti
  | tick =>
    obtain ⟨a₁, a₂, a₃, sig, t, hm₁, hm₂, hsigr, hm₃, hsig, ht⟩ := tick_parti h hr
    have hI₁ := hm₁.inv hI
    have hI₂ := hm₂.inv hI₁
    have hQ₁ := hm₁.quanti hI le_rfl hG.quanti (by rintro ⟨⟩) (by rintro _ _ ⟨⟩)
    have hQ₃ := hsig.quanti hsigr hI₂ (by decide) (hm₂.quanti_conta hI₁ hQ₁)
    exact hm₃.quanti_turno ht (Mossa.inv_run hsigr hI₂) hQ₃
  | tasto code =>
    have hbreve : ∀ {t}, Run Mossa a [t] b → t = .chiude ∨ t = .dati → Quanti QUANTUM b := by
      intro t hr ht
      cases hr with
      | cons hm hnil =>
        cases hnil
        refine hm.quanti hI le_rfl hG.quanti ?_ fun _ _ _ => rfl
        rcases ht with rfl | rfl <;> rintro ⟨⟩
    rw [show ts = _ from h] at hr
    split at hr
    · split at hr
      · exact hbreve hr (Or.inl rfl)
      · exact hbreve hr (Or.inr rfl)
    · cases hr
      exact hG.quanti
  | eccezione =>
    rw [show ts = [.termina p] from h] at hr
    cases hr with
    | cons hm hnil =>
      cases hnil
      exact hm.quanti hI le_rfl hG.quanti (by rintro ⟨⟩) fun _ _ _ => rfl
  | ritorno => exact absurd h id

/-- A tick after which `p` still has the CPU, while `q` is ready and not behind it, is charged
to `p`. -/
theorem tick_battito (hts : Rappr.Tick ts) (hr : Run Mossa a ts b) (hI : Inv a) (hG : Giro a)
    (he : a.esecuzione = some p) (hb : b.esecuzione = some p) (hq : q ∈ a.pronti)
    (hprec : a.prec q ≤ a.prec p) (hprec' : b.prec q ≤ b.prec p) :
    (b.dati p).tick = (a.dati p).tick + 1 := by
  obtain ⟨a₁, a₂, a₃, sig, t, hm₁, hm₂, hsigr, hm₃, hsig, ht⟩ := tick_parti hts hr
  have hI₁ := hm₁.inv hI
  have hI₂ := hm₂.inv hI₁
  have hI₃ := Mossa.inv_run hsigr hI₂
  have he₁ : a₁.esecuzione = some p := by
    cases hm₁ with
    | orologio => rwa [Astratto.esecuzione_orologio]
  have hQ₁ := hm₁.quanti hI le_rfl hG.quanti (by rintro ⟨⟩) (by rintro _ _ ⟨⟩)
  have h₂ := (hm₁.resta hI he he₁ (by simp [Scade]) (by rintro ⟨⟩)).trans
    (hm₂.resta_conta hI₁ hQ₁ he₁)
  rcases hsig.resta hsigr hI₂ h₂.esecuzione with hmorto | h₃
  · -- the signal has ended `p`, so `p` does not run at the end
    refine absurd ((hm₃.inv hI₃).esecuzione_vivi hb) fun hp => hmorto ?_
    rw [hm₃.vivi_eq hI₃] at hp
    rcases ht with rfl | rfl | rfl <;> exact hp
  · have h := h₂.trans h₃
    have hO₃ := ordinato_run hsigr hI₂ (hm₂.ordinato hI₁ (hm₁.ordinato hI hG.ordinato))
    have hscade : ¬ Scade t := fun hs => by
      refine hm₃.scade hs hI₃ hO₃ h.esecuzione (h.pronti q hq) ?_ hprec' hb
      rw [h.prec q (Or.inr hq), h.prec p (Or.inl rfl)]
      exact hprec
    have htick := (hm₃.resta hI₃ h.esecuzione hb hscade fun hc => by
      rcases ht with rfl | rfl | rfl <;> cases hc).tick
    rw [htick, h.tick]
    omega

end Mosse

/-! ## The kernel -/

section Nucleo

variable {s t : Kernel} {a : Astratto} {e : Evento} {p q : Pid}

theorem Attesa.astratta (h : Attesa p q s) (hR : Rappr s a) :
    a.esecuzione = some p ∧ q ∈ a.pronti ∧ a.prec q ≤ a.prec p := by
  refine ⟨hR.esecuzione.symm.trans h.esecuzione, hR.inPronti_iff.mp h.pronto, ?_⟩
  rw [← hR.prec, ← hR.prec]
  exact h.prec

/-- The move of a call that leaves its caller on the CPU. -/
theorem Rappr.esegui_tiene {c : Chiamata} (hR : Rappr s a) (hA : Regolare a)
    (hposs : Possibile s (.chiamata c)) (heq : esegui c s = .ok t) (ht : t.esecuzione = some p) :
    ∃ u b, u ≠ .chiude ∧ u ≠ .conta ∧ ¬ Turno u ∧ Mossa a u b ∧ Rappr t b := by
  obtain ⟨⟨r, hesec, hr⟩, -, hf⟩ := hposs
  have he : a.esecuzione = some r := hR.esecuzione.symm.trans hesec
  rw [hR.vive] at hf
  by_cases hv : SegnaleVuoto a c
  · cases c with
    | semSignal hsem =>
      obtain ⟨t', heq', ⟨hnone, -⟩ | ⟨-, i, b, -, hm, hRt⟩⟩ :=
        hR.kiSemSignal_vuoto hA.inv he hsem hv
      · obtain rfl := Except.ok.inj (heq'.symm.trans heq)
        rw [hnone] at ht
        cases ht
      · obtain rfl := Except.ok.inj (heq'.symm.trans heq)
        exact ⟨_, b, by rintro ⟨⟩, by rintro ⟨⟩, by simp [Turno], hm, hRt⟩
    | _ => exact absurd hv id
  · obtain ⟨t', u, b, heq', hu, hm, hRt⟩ := hR.esegui_mossa hA.inv he hr c hf hv
    obtain rfl := Except.ok.inj (heq'.symm.trans heq)
    exact ⟨u, b, hu.diChiamata.1, hu.diChiamata.2.1, hu.diChiamata.2.2, hm, hRt⟩

theorem Rappr.chiamata_resta {c : Chiamata} (hR : Rappr s a) (hA : Regolare a)
    (hposs : Possibile s (.chiamata c)) (heq : passo s (.chiamata c) = .ok t)
    (he : a.esecuzione = some p) (htiene : Tiene p s (.chiamata c)) (ht : t.esecuzione = some p) :
    (t.des (some p)).tick = (s.des (some p)).tick := by
  obtain ⟨s₁, heq₁, heq₂⟩ := bind_ok heq
  have hesec₁ := htiene s₁ heq₁
  obtain ⟨u, b₁, hchiude, hconta, hturno, hm, hR₁⟩ := hR.esegui_tiene hA hposs heq₁ hesec₁
  have he₁ : b₁.esecuzione = some p := hR₁.esecuzione.symm.trans hesec₁
  have hp : p ≠ idle := by
    obtain ⟨⟨r, hr, hri⟩, -⟩ := hposs
    obtain rfl := Option.some.inj (hr.symm.trans (hR.esecuzione.trans he))
    exact hri
  have hM := hA.muto he hp
  obtain ⟨t', sig, b, heq', hsig, hrun, hRt, hAb⟩ :=
    hR₁.uscita_eq (hA.mossa hm hchiude hM) (hm.muto hA.inv hchiude hM)
  obtain rfl := Except.ok.inj (heq'.symm.trans heq₂)
  have h₁ := hm.resta hA.inv he he₁ (fun h => hturno (Or.inr h)) hconta
  rcases hsig.resta hrun (hm.inv hA.inv) he₁ with hmorto | h₂
  · exact absurd (hAb.inv.esecuzione_vivi (hRt.esecuzione.symm.trans ht)) hmorto
  · rw [hRt.tick, hR.tick, (h₁.trans h₂).tick]
    omega

/-- One entry of a stretch: `p` is charged for the ticks. -/
theorem Tratto.tick (h : Tratto p q s e t) (hR : Rappr s a) (hA : Regolare a) (hG : Giro a) :
    (t.des (some p)).tick = (s.des (some p)).tick + battiti [e] := by
  obtain ⟨hposs, hv, heq⟩ := h.avanza
  obtain ⟨he, hq, hprec⟩ := h.inizio.astratta hR
  obtain ⟨r, ts, b, her, hts, hrun, hRt, hAb⟩ := hR.mosse hA hposs heq (hv t heq)
  obtain rfl := Option.some.inj (he.symm.trans her)
  obtain ⟨heb, -, hprec'⟩ := h.fine.astratta hRt
  cases e with
  | chiamata c =>
    rw [hR.chiamata_resta hA hposs heq he h.tiene h.fine.esecuzione]
    exact (add_zero _).symm
  | chiamataErrata =>
    obtain rfl := show ts = [] from hts
    cases hrun
    rw [hRt.tick, hR.tick]
    exact (add_zero _).symm
  | tick =>
    rw [hRt.tick, hR.tick]
    exact tick_battito hts hrun hA.inv hG he heb hq hprec hprec'
  | tasto code =>
    have hbreve : ∀ {u}, Run Mossa a [u] b → u = .chiude ∨ u = .dati →
        (b.dati p).tick = (a.dati p).tick := by
      intro u hr hu
      cases hr with
      | cons hm hnil =>
        cases hnil
        have := (hm.resta hA.inv he heb (by rcases hu with rfl | rfl <;> simp [Scade])
          (by rcases hu with rfl | rfl <;> rintro ⟨⟩)).tick
        rw [this, add_zero]
    rw [hRt.tick, hR.tick]
    refine Eq.trans ?_ (add_zero _).symm
    rw [show ts = _ from hts] at hrun
    split at hrun
    · split at hrun
      · exact hbreve hrun (Or.inl rfl)
      · exact hbreve hrun (Or.inr rfl)
    · cases hrun
      rfl
  | eccezione =>
    rw [hRt.tick, hR.tick]
    rw [show ts = [.termina p] from hts] at hrun
    cases hrun with
    | cons hm hnil =>
      cases hnil
      rw [(hm.resta hA.inv he heb (by simp [Scade]) (by rintro ⟨⟩)).tick]
      rfl
  | ritorno => exact absurd hts id

/-- A whole stretch. -/
theorem tratto_tick {es : List Evento} (h : Run (Tratto p q) s es t)
    (hs : ∃ a, Rappr s a ∧ Regolare a ∧ Giro a) (hp : s.esecuzione = some p) :
    ∃ a, Rappr t a ∧ Regolare a ∧ Giro a ∧ t.esecuzione = some p ∧
      (t.des (some p)).tick = (s.des (some p)).tick + battiti es := by
  induction h with
  | nil =>
    obtain ⟨a, hR, hA, hG⟩ := hs
    exact ⟨a, hR, hA, hG, hp, (add_zero _).symm⟩
  | @cons s u t e es hstep _ ih =>
    obtain ⟨a, hR, hA, hG⟩ := hs
    obtain ⟨hposs, hv, heq⟩ := hstep.avanza
    obtain ⟨r, ts, b, -, hts, hrun, hRu, hAu⟩ := hR.mosse hA hposs heq (hv u heq)
    obtain ⟨c, hRt, hAt, hGt, hpt, htick⟩ :=
      ih ⟨b, hRu, hAu, hts.giro hrun hA.inv hG⟩ hstep.fine.esecuzione
    refine ⟨c, hRt, hAt, hGt, hpt, ?_⟩
    have hsum : battiti (e :: es) = battiti [e] + battiti es := by
      simp only [battiti, List.countP_cons, List.countP_nil]
      omega
    rw [htick, hstep.tick hR hA hG, hsum, Nat.cast_add, add_assoc]

end Nucleo

theorem Raggiunge.giro {s : Kernel} {es : List Evento} (h : Raggiunge IdleVivo es s) :
    ∃ a, Rappr s a ∧ Regolare a ∧ Giro a :=
  h.segue (J := Giro) (fun _ _ h => h) (fun _ ha => ha.giro)
    (fun a t b hI he hm hG =>
      ⟨hm.ordinato hI hG.ordinato, hm.quanti hI le_rfl hG.quanti (by
        rintro rfl
        cases hm with
        | conta p he' =>
          rw [he] at he'
          cases he') fun _ _ _ => rfl⟩)
    fun _ _ _ _ _ _ _ hA _ _ _ hts hrun hG => hts.giro hrun hA.inv hG

/-- `ts` is what happens from the first to the last of the timer interrupts in question: the
last one comes when it is over. -/
theorem turni (es : List Evento) (s : Kernel) (h : Raggiunge IdleVivo es s) :
    (∀ p, s.esecuzione = some p → 0 ≤ (s.des (some p)).tick ∧ (s.des (some p)).tick ≤ QUANTUM) ∧
      ∀ p q ts t, Run (Tratto p q) s ts t → (battiti ts : Int) + 1 ≤ QUANTUM + 1 := by
  have hentro : ∀ {s : Kernel} {a : Astratto} {p : Pid}, Rappr s a → Giro a →
      s.esecuzione = some p → 0 ≤ (s.des (some p)).tick ∧ (s.des (some p)).tick ≤ QUANTUM := by
    intro s a p hR hG hp
    rw [hR.tick]
    exact hG.quanti.esecuzione p (hR.esecuzione.symm.trans hp)
  obtain ⟨a, hR, hA, hG⟩ := h.giro
  refine ⟨fun p hp => hentro hR hG hp, fun p q ts t hrun => ?_⟩
  cases hrun with
  | nil => decide
  | cons hstep hrest =>
    have hp := hstep.inizio.esecuzione
    obtain ⟨b, hRt, -, hGt, hpt, htick⟩ := tratto_tick (.cons hstep hrest) ⟨a, hR, hA, hG⟩ hp
    have h0 := (hentro hR hG hp).1
    have h1 := (hentro hRt hGt hpt).2
    omega

/-- `q` is the first in the ready list. -/
def Prima (p q : Pid) (s : Kernel) : Prop :=
  s.esecuzione = some p ∧ s.pronti = some q ∧ s.prec q ≤ s.prec p

instance (p q : Pid) (s : Kernel) : Decidable (Prima p q s) := inferInstanceAs (Decidable (_ ∧ _))

/-- The timer interrupts of a stretch. -/
def TickPrima (p q : Pid) (s : Kernel) (e : Evento) : Prop :=
  IdleVivo s e ∧ e.battito = true ∧ Prima p q s ∧ (passo s e).toOption.any fun t => Prima p q t

instance (p q : Pid) (s : Kernel) (e : Evento) : Decidable (TickPrima p q s e) :=
  inferInstanceAs (Decidable (_ ∧ _))

theorem Prima.attesa {p q : Pid} {s : Kernel} {a : Astratto} (h : Prima p q s) (hR : Rappr s a) :
    Attesa p q s := by
  refine ⟨h.1, hR.inPronti_iff.mpr (List.mem_of_mem_head? ?_), h.2.2⟩
  exact hR.pronti.head_eq.symm.trans h.2.1

theorem TickPrima.tratto {p q : Pid} {es : List Evento} {s t : Kernel}
    (h : Run (Avanza (TickPrima p q)) s es t) (hs : ∃ a, Rappr s a ∧ Regolare a ∧ Giro a) :
    Run (Tratto p q) s es t := by
  refine h.strengthen (I := fun s => ∃ a, Rappr s a ∧ Regolare a ∧ Giro a) ?_ hs
  rintro s e t ⟨a, hR, hA, hG⟩ ⟨hposs, ⟨hv, hbat, hs, ht⟩, heq⟩
  obtain ⟨r, ts, b, -, hts, hrun, hRt, hAt⟩ := hR.mosse hA hposs heq (hv t heq)
  rw [heq] at ht
  refine ⟨⟨⟨hposs, hv, heq⟩, hs.attesa hR, (of_decide_eq_true ht).attesa hRt, ?_⟩, b, hRt, hAt,
    hts.giro hrun hA.inv hG⟩
  cases e with
  | tick => trivial
  | _ => cases hbat

/-- Two processes of one priority: the first keeps the CPU for `QUANTUM` ticks, and loses it at
the next. -/
theorem turni_corsa :
    ∃ s ts t, Raggiunge IdleVivo [] s ∧ Run (Tratto 1 2) s ts t ∧ battiti ts = 10 ∧
      (battiti ts : Int) + 1 ≤ QUANTUM + 1 := by
  obtain ⟨x, hx, -⟩ := Sistema.prova_raggiunge (B := fun _ => True)
    (G := fun x e => TickPrima 1 2 x.kernel e)
    [.attiva 0x7000 0 10 3 0x5010 0x5014 (pila 0x20000),
      .attiva 0x7100 0 10 3 0x5018 0x501c (pila 0x22000)]
    (List.replicate 10 .tick) (fun _ => true) (by decide +kernel)
  obtain ⟨s, hs, hrun⟩ := hx.kernel (H := TickPrima 1 2) fun _ _ h => h
  have h0 : Raggiunge IdleVivo [] s := ⟨s, hs, .nil⟩
  have htratto := TickPrima.tratto hrun h0.giro
  exact ⟨s, _, _, h0, htratto, rfl, (turni [] s h0).2 1 2 _ _ htratto⟩

end Pitos
