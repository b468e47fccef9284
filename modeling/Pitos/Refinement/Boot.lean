import Pitos.Kernel.Places
import Pitos.Refinement.Events

/-!
# From the loader to the first process

`kernel_init` activates `dummyproc` in the first slot and leaves a state that represents an
`Iniziale` one; the activations by `cmain` are moves, and so is `kernel_go`
(`Avviato.mosse`). From then on every entry is a sequence of moves, so what holds of the
initial states and is preserved by the moves holds in every state the kernel reaches
(`Run.mosse`).
-/

namespace Pitos

open Lib

namespace Rappr

variable {s : Kernel} {a : Astratto} {p : Pid}

theorem inPronti_iff (hR : Rappr s a) : s.InPronti p ↔ p ∈ a.pronti := by
  constructor
  · rintro ⟨l, hl, hp⟩
    exact hl.unique hR.pronti ▸ hp
  · exact fun hp => ⟨a.pronti, hR.pronti, hp⟩

theorem vivo_iff (hR : Rappr s a) : s.Vivo p ↔ p ∈ a.vivi := by
  rw [Kernel.Vivo, hR.stato, Astratto.mem_vivi]

end Rappr

/-- The abstract state that `kernel_init` leaves. -/
structure Iniziale (a : Astratto) : Prop where
  esecuzione : a.esecuzione = none
  pronti : a.pronti = [idle]
  coda : ∀ i, (a.sem i).coda = []
  count : ∀ i, (a.sem i).count = 0
  busy : ∀ i, (a.sem i).busy = false
  sonno : a.sonno = []
  vive : a.vive = []
  procCount : a.procCount = 1
  rescheduler : a.rescheduler = 0
  idleVivo : (a.dati idle).stato = .PRONTO
  idleMask : (a.dati idle).sigMask = 0
  idleGestori : (a.dati idle).sigHandlers = fun _ => SIG_DFL
  liberi : ∀ p, p ≠ idle → (a.dati p).stato = .FREE

namespace Iniziale

variable {a : Astratto}

theorem inCoda (h : Iniziale a) (p : Pid) : a.inCoda p = if idle = p then 1 else 0 := by
  simp [Astratto.inCoda, h.pronti, h.coda, h.sonno, List.count_singleton]

theorem vivi (h : Iniziale a) : a.vivi = {idle} := by
  ext p
  rw [Astratto.mem_vivi, Finset.mem_singleton]
  by_cases hp : p = idle
  · subst hp
    simp [h.idleVivo]
  · simp [hp, h.liberi p hp]

theorem inv (h : Iniziale a) : Inv a := by
  have hpres : ∀ p, a.presenze p = if idle = p then 1 else 0 := fun p => by
    simp [Astratto.presenze, h.esecuzione, h.inCoda]
  refine ⟨fun p => ?_, fun p hp => ?_, Or.inr (by simp [h.pronti]), ?_, by simp [h.sonno],
    by simp [h.sonno, h.vive]⟩
  · rw [hpres]
    split <;> omega
  · rw [hpres] at hp
    split at hp
    · rename_i e
      simp [h.vivi, ← e]
    · omega
  · rw [h.procCount, h.vivi]
    rfl

theorem muto (h : Iniziale a) : Mossa.Muto a := ⟨by rw [h.idleGestori], h.idleMask⟩

end Iniziale

/-- The states in which `kernel_go` gives the CPU away for the first time, after the
activations by `cmain`. -/
def Avviato (s : Kernel) : Prop :=
  ∃ s₀ dummy risu stk s₁ avvii s₂, Caricato s₀ ∧ kernelInit dummy risu stk s₀ = .ok s₁ ∧
    Run (fun s x t => avvia s x = .ok t) s₁ avvii s₂ ∧ kernelGo s₂ = .ok s

theorem kernelInit_eq {s : Kernel} (h : Caricato s) (dummy risu : Word) (stk : Fin 3 → Word) :
    ∃ s' a, kernelInit dummy risu stk s = .ok s' ∧ Iniziale a ∧ Rappr s' a := by
  let s₀ : Kernel := { s with
    currentPage := 0
    des := fun p => if p = none then s.des none else { s.des p with stato := .FREE }
    dessem := fun i => { s.dessem i with busy := false }
    tssEsp0 := s.link.sysStack + 4095 }
  let a₀ : Astratto := {
    dati := fun p => (s₀.des (some p)).slegato
    esecuzione := none
    pronti := []
    sem := fun i => { coda := [], count := 0, busy := false }
    sonno := []
    vive := []
    procCount := 0
    rescheduler := 0 }
  have hR : Rappr s₀ a₀ :=
    ⟨fun p => rfl, h.esecuzione, h.pronti ▸ Linked.nil, fun i => ⟨h.coda i ▸ Linked.nil, h.count i,
      rfl⟩, h.desTimer ▸ Linked.nil, fun r hr => absurd hr List.not_mem_nil,
      fun r hr => absurd hr List.not_mem_nil, h.vive, h.procCount, h.rescheduler⟩
  have hfree : ∀ p, (a₀.dati p).stato = .FREE := fun p => rfl
  have hcoda : ∀ p, a₀.inCoda p = 0 := fun p => by simp [Astratto.inCoda, a₀]
  have hvivi : a₀.vivi = ∅ := by
    ext p
    simp [hfree]
  obtain ⟨s', heq, ⟨hfull, -⟩ | ⟨q, b, hq, hm, hR'⟩⟩ := hR.kiActivatePLevel_eq
    (fun p => by rw [hcoda]; omega) (by rw [hvivi]; rfl) (fun p _ => hcoda p) (by simp [a₀])
    s.link.dummyproc 0 3000 0 dummy risu stk
  · rw [show s₀.procCount = 0 from h.procCount] at hfull
    exact absurd hfull (by decide)
  · have hq0 : q = idle := by
      have hfirst : s₀.cercaLibero = some idle := by
        unfold Kernel.cercaLibero
        rw [List.finRange_succ, List.find?_cons_of_pos]
        rfl
      exact Option.some.inj (hq.symm.trans hfirst)
    subst hq0
    obtain ⟨d, -, -, hstato, -, hmask, hgestori, rfl⟩ := hm.attiva_inv
    refine ⟨s', _, heq, ⟨rfl, rfl, fun i => rfl, fun i => rfl, fun i => rfl, rfl, rfl, rfl, rfl,
      hstato, hmask, hgestori, fun p hp => ?_⟩, hR'⟩
    rw [Astratto.dati_accoda]
    show ((a₀.aggiorna idle fun _ => d).dati p).stato = .FREE
    rw [Astratto.dati_aggiorna, Function.update_of_ne hp]
    exact hfree p

/-- The moves of a kernel function that `cmain` calls. -/
def TracciaAvvio (s : Kernel) : Avvio → List Atto → Prop
  | .attiva _ _ prec _ _ _ _, ts => ts = [] ∨ ∃ q, ts = [.attiva q prec]
  | .semIni valore _ _, ts =>
    match s.cercaSem with
    | none => ts = []
    | some i => ts = [.semIni i valore]

/-- It is one move at most, and none of the keyboard. -/
theorem TracciaAvvio.breve {s : Kernel} {x : Avvio} {ts : List Atto} (h : TracciaAvvio s x ts) :
    ts = [] ∨ ∃ t, t ≠ .chiude ∧ ts = [t] := by
  cases x with
  | attiva f h' prec level idx risu stk =>
    rcases h with rfl | ⟨q, rfl⟩
    · exact Or.inl rfl
    · exact Or.inr ⟨_, by rintro ⟨⟩, rfl⟩
  | semIni valore idx risu =>
    simp only [TracciaAvvio] at h
    split at h
    · exact Or.inl h
    · exact Or.inr ⟨_, by rintro ⟨⟩, h⟩

theorem avvia_eq {s : Kernel} {a : Astratto} (hR : Rappr s a) (hI : Inv a)
    (he : a.esecuzione = none) (x : Avvio) :
    ∃ s' ts b, avvia s x = .ok s' ∧ TracciaAvvio s x ts ∧ Run Mossa a ts b ∧ Rappr s' b ∧
      b.esecuzione = none := by
  have hne : a.esecuzione ≠ some idle := by simp [he]
  cases x with
  | attiva f h prec level idx risu stk =>
    obtain ⟨s', heq, ⟨-, hR'⟩ | ⟨q, b, -, hm, hR'⟩⟩ := hR.kiActivatePLevel_eq hI.separati hI.conta
      (fun q hq => hI.inCoda_of_free hq) hne f h prec level idx risu stk
    · exact ⟨s', [], a, heq, Or.inl rfl, Run.nil, hR', he⟩
    · refine ⟨s', [.attiva q prec], b, heq, Or.inr ⟨q, rfl⟩, Run.single hm, hR', ?_⟩
      obtain ⟨d, -, -, -, -, -, -, rfl⟩ := hm.attiva_inv
      exact he
  | semIni valore idx risu =>
    rcases hR.kiSemIni_eq valore idx risu with ⟨hc, hR'⟩ | ⟨i, b, hc, hm, hR'⟩
    · exact ⟨_, [], a, rfl, by simp only [TracciaAvvio, hc], Run.nil, hR', he⟩
    · refine ⟨_, [.semIni i valore], b, rfl, by simp only [TracciaAvvio, hc], Run.single hm, hR', ?_⟩
      cases hm
      exact he

theorem kernelGo_eq {s : Kernel} {a : Astratto} (hR : Rappr s a) (hI : Inv a)
    (he : a.esecuzione = none) :
    ∃ s' b, kernelGo s = .ok s' ∧ Mossa a .parte b ∧ Rappr s' b ∧ b.esecuzione ≠ none := by
  have hnone : s.esecuzione = none := hR.esecuzione.trans he
  have hpronti : a.pronti ≠ [] := by
    rcases hI.idle with h | h
    · rw [he] at h
      cases h
    · exact List.ne_nil_of_mem h
  have hR₁ := hR.schedulatore hI.separati
  have hne := Mossa.schedulatore_attivo hpronti
  have hne' : (schedulatore s).esecuzione ≠ none := hR₁.esecuzione ▸ hne
  obtain ⟨s', heq, hR'⟩ := hR₁.caricaStato_eq hne
  refine ⟨s', _, ?_, Mossa.parte he, hR', hne⟩
  simp only [kernelGo, hnone, if_true, hne', if_false]
  exact heq

/-- One entry that comes back, under a condition `G` on the entries. -/
def Avanza (G : Kernel → Evento → Prop) (s : Kernel) (e : Evento) (t : Kernel) : Prop :=
  Possibile s e ∧ G s e ∧ passo s e = .ok t

/-- The states the kernel reaches after `kernel_go`. -/
def Raggiunge (G : Kernel → Evento → Prop) (es : List Evento) (s : Kernel) : Prop :=
  ∃ s₀, Avviato s₀ ∧ Run (Avanza G) s₀ es s

/-- The entry leaves the idle process alive. -/
def IdleVivo (s : Kernel) (e : Evento) : Prop := ∀ t, passo s e = .ok t → t.Vivo idle

/-- As long as the idle process lives an entry is a sequence of moves. -/
theorem Rappr.mosse {s t : Kernel} {e : Evento} {a : Astratto} (hR : Rappr s a) (hA : Regolare a)
    (hposs : Possibile s e) (heq : passo s e = .ok t) (hv : t.Vivo idle) :
    ∃ p ts b, a.esecuzione = some p ∧ Traccia s p e ts ∧ Run Mossa a ts b ∧ Rappr t b ∧
      Regolare b := by
  obtain ⟨p, he⟩ := Option.ne_none_iff_exists'.mp hA.attivo
  rcases hR.passo_mosse hA he hposs with ⟨t', ts, b, heq', hts, hrun, hR', hA'⟩ | hf
  · obtain rfl := Except.ok.inj (heq'.symm.trans heq)
    exact ⟨p, ts, b, he, hts, hrun, hR', hA'⟩
  · rw [heq] at hf
    cases hf with
    | perso _ b hmask hq hR' hb => exact absurd ((hR'.stato idle).trans hb.libero) hv

/-- The parts of a tick that leaves the idle process alive. -/
theorem Rappr.tick_mosse {s t : Kernel} {a : Astratto} {p : Pid} (hR : Rappr s a) (hA : Regolare a)
    (he : a.esecuzione = some p) (heq : passo s .tick = .ok t) (hv : t.Vivo idle) :
    ∃ s₁ s₂ s₃ sig u a₂ b, scadenze s = .ok s₁ ∧ addebita s₁ = .ok s₂ ∧ turno s₂ = .ok s₃ ∧
      Segnali sig ∧ (sig = [.dati, .termina p] ↔ (a.dati p).Muore) ∧ Turno u ∧
      Rappr s₁ a.orologio ∧ Run Mossa a.orologio (.conta :: sig) a₂ ∧ Rappr s₂ a₂ ∧
      Regolare a₂ ∧ Mossa a₂ u b ∧ Rappr s₃ b ∧ caricaStato s₃ = .ok t ∧ Rappr t b ∧
      Regolare b := by
  by_cases hz : (a.dati idle).sigMask = 0
  · obtain ⟨s₁, s₂, s₃, sig, u, a₂, b, h₁, h₂, h₃, hsig, hmuore, hu, hR₁, hrun, hR₂, hA₂, hM₂, hm,
      hR₃⟩ := hR.cdriverT_parti hA (hA.zitto.muto hz) he
    have hAb := hA₂.mossa hm (by rcases hu with rfl | rfl | rfl <;> rintro ⟨⟩) hM₂
    obtain ⟨t', heq', hRt⟩ := hR₃.caricaStato_eq hAb.attivo
    have htick : passo s .tick = .ok t' := by
      simp only [passo, cdriverT, h₁]
      show (((addebita s₁) >>= fun s => turno s) >>= fun s => caricaStato s) = _
      rw [h₂]
      show (turno s₂ >>= fun s => caricaStato s) = _
      rw [h₃]
      exact heq'
    obtain rfl := Except.ok.inj (htick.symm.trans heq)
    exact ⟨s₁, s₂, s₃, sig, u, a₂, b, h₁, h₂, h₃, hsig, hmuore, hu, hR₁, hrun, hR₂, hA₂, hm, hR₃,
      heq', hRt, hAb⟩
  · rcases hR.passo_idle hA hz with ⟨u, hu, -⟩ | ⟨-, u, b, hu, hRb, hb⟩
    · cases hu.symm.trans heq
    · obtain rfl := Except.ok.inj (hu.symm.trans heq)
      exact absurd ((hRb.stato idle).trans hb.libero) hv

/-! ## Invariants of the running kernel -/

section Invariante

variable {J : Astratto → Prop} {G : Kernel → Evento → Prop} {s : Kernel} {es : List Evento}

/-- What holds at the start and is kept by the moves before `kernel_go` holds when the first
process runs. -/
theorem Avviato.segue (h : Avviato s) (h0 : ∀ a, Iniziale a → J a)
    (hJ : ∀ a t b, Inv a → a.esecuzione = none → Mossa a t b → J a → J b) :
    ∃ a, Rappr s a ∧ Regolare a ∧ Mossa.Muto a ∧ J a := by
  obtain ⟨s₀, dummy, risu, stk, s₁, avvii, s₂, hcar, hinit, hrun, hgo⟩ := h
  obtain ⟨s₁', a₀, heq, hini, hR₀⟩ := kernelInit_eq hcar dummy risu stk
  obtain rfl := Except.ok.inj (heq.symm.trans hinit)
  have hstep : ∀ s x t a, (Rappr s a ∧ Inv a ∧ Mossa.Muto a ∧ a.esecuzione = none ∧ J a) →
      avvia s x = .ok t → ∃ ts b, Run Mossa a ts b ∧
        Rappr t b ∧ Inv b ∧ Mossa.Muto b ∧ b.esecuzione = none ∧ J b := by
    rintro s x t a ⟨hR, hI, hM, he, hJa⟩ hx
    obtain ⟨t', ts, b, heq, htr, hts, hR', he'⟩ := avvia_eq hR hI he x
    obtain rfl := Except.ok.inj (heq.symm.trans hx)
    rcases htr.breve with rfl | ⟨t, ht, rfl⟩
    · cases hts
      exact ⟨[], a, Run.nil, hR', hI, hM, he, hJa⟩
    · cases hts with
      | cons hm hnil =>
        cases hnil
        exact ⟨[t], b, Run.single hm, hR', hm.inv hI, hm.muto hI ht hM, he', hJ _ _ _ hI he hm hJa⟩
  obtain ⟨ts, a, -, hR, hI, hM, he, hJa⟩ :=
    hrun.simulate hstep ⟨hR₀, hini.inv, hini.muto, hini.esecuzione, h0 _ hini⟩
  obtain ⟨s', b, heq', hm, hR', hne⟩ := kernelGo_eq hR hI he
  obtain rfl := Except.ok.inj (heq'.symm.trans hgo)
  have hM' := hm.muto hI (by rintro ⟨⟩) hM
  exact ⟨b, hR', ⟨hm.inv hI, hne, hM'.zitto⟩, hM', hJ _ _ _ hI he hm hJa⟩

/-- What every entry keeps as well holds in every state that is reached. -/
theorem Raggiunge.segue (h : Raggiunge G es s) (hG : ∀ s e, G s e → IdleVivo s e)
    (h0 : ∀ a, Iniziale a → J a)
    (hJ : ∀ a t b, Inv a → a.esecuzione = none → Mossa a t b → J a → J b)
    (hJ' : ∀ s e p ts a b, Rappr s a → Regolare a → a.esecuzione = some p → Possibile s e →
      G s e → Traccia s p e ts → Run Mossa a ts b → J a → J b) :
    ∃ a, Rappr s a ∧ Regolare a ∧ J a := by
  obtain ⟨s₀, hs₀, hrun⟩ := h
  obtain ⟨a, hR, hA, -, hJa⟩ := hs₀.segue h0 hJ
  exact hrun.invariant (I := fun s => ∃ a, Rappr s a ∧ Regolare a ∧ J a)
    (fun s e t ⟨a, hR, hA, hJa⟩ ⟨hposs, hg, heq⟩ => by
      obtain ⟨p, ts, b, he, hts, hrun, hR', hA'⟩ := hR.mosse hA hposs heq (hG _ _ hg _ heq)
      exact ⟨b, hR', hA', hJ' _ _ _ _ _ _ hR hA he hposs hg hts hrun hJa⟩) ⟨a, hR, hA, hJa⟩

end Invariante

end Pitos
