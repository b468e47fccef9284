import Pitos.Properties.Waiting

/-!
# Starvation

`inedia`: `reschedule` puts a process that always wants to run back by six at most, so a ready
process whose base priority is worse by more than that never gets the CPU. What `p` was charged
since the last new priorities is the invariant (`Grava`): the ticks of one period, and those of its
last quantum a second time.
-/

namespace Pitos

open Lib

section Mosse

variable {a b c : Astratto} {t : Atto} {ts sig : List Atto} {p q r : Pid} {n m k : Int}

/-- The moves of a stretch in which `p` always wants to run. -/
def Gara (p : Pid) (a : Astratto) (t : Atto) (b : Astratto) : Prop :=
  Regolata a t b ∧ InGara p a ∧ InGara p b

theorem gara_indietro (h : Run Regolata a ts b) (ht : ∀ t ∈ ts, ¬ t.Apre) (hp : InGara p b) :
    InGara p a ∧ Run (Gara p) a ts b :=
  h.backward (P := InGara p) (fun _ _ t h hR hp => hR.mossa.inGara_prima (ht t h) hp) hp

/-- Only the first move of an entry brings a process into the race. -/
theorem Traccia.gara {s : Kernel} {e : Evento} (h : Traccia s r e ts) (hr : Run Regolata a ts b)
    (hp : InGara p a) (hp' : InGara p b) : Run (Gara p) a ts b := by
  have hprima : ∀ {t : Atto} {us : List Atto}, Run Regolata a (t :: us) b →
      (∀ u ∈ us, ¬ u.Apre) → Run (Gara p) a (t :: us) b := by
    intro t us hr hus
    cases hr with
    | cons hR hrest =>
      obtain ⟨hc, hrun⟩ := gara_indietro hrest hus hp'
      exact .cons ⟨hR, hp, hc⟩ hrun
  cases e with
  | chiamata x =>
    obtain ⟨t, sig, ht, hsig, rfl⟩ := h
    exact hprima hr hsig.apre
  | chiamataErrata =>
    obtain rfl := show ts = [] from h
    cases hr
    exact .nil
  | tick =>
    obtain ⟨sig, t, hsig, ht, rfl⟩ := h
    exact hprima hr (coda_tick hsig ht)
  | tasto code =>
    rw [show ts = _ from h] at hr ⊢
    refine (gara_indietro hr ?_ hp').2
    split
    · split <;> simp [Atto.Apre]
    · simp
  | eccezione =>
    obtain rfl := show ts = [.termina r] from h
    exact (gara_indietro hr (by simp [Atto.Apre]) hp').2
  | ritorno => exact absurd h id

/-- `q` is ready and `p` will always be in front of it. -/
structure Dietro (p q : Pid) (k : Int) (a : Astratto) : Prop where
  grava : Grava p k a
  pronto : q ∈ a.pronti
  base : (a.dati p).baseprec + 6 < (a.dati q).baseprec

theorem Dietro.gara (h : Dietro p q k a) (hG : Gara p a t b) {j : Int} (hb : Grava p j b) :
    Dietro p q j b := by
  obtain ⟨⟨hm, ha, hfine, -⟩, hp, hp'⟩ := hG
  have hv := ha.inv.pronti_vivi q h.pronto
  have hbase : (b.dati p).baseprec + 6 < (b.dati q).baseprec := by
    rw [hm.baseprec_eq ha.inv (ha.inv.inGara_vivi hp), hm.baseprec_eq ha.inv hv]
    exact h.base
  have hle : b.prec q = a.prec q ∨ t = .rischedula := by
    by_cases hr : t = .rischedula
    · exact Or.inr hr
    · exact Or.inl (hm.prec_eq ha.inv hv fun e => absurd e hr)
  have hprec : a.prec p < a.prec q := by
    have h1 := h.grava.prec
    have h2 : (a.dati q).baseprec ≤ a.prec q := (ha.contenuti q hv).prec
    have h3 := h.base
    omega
  -- the priority of `q` is not in front of its base, ready or not
  have hprec' : b.prec p < b.prec q := by
    have h1 := hb.prec
    have h2 : (b.dati q).baseprec ≤ b.prec q := by
      rcases hle with hle | rfl
      · rw [hle, hm.baseprec_eq ha.inv hv]
        exact (ha.contenuti q hv).prec
      · have hq : q ∈ b.vivi := by
          rw [hm.vivi_eq ha.inv]
          exact hv
        exact (hfine.contenuti q hq).prec
    omega
  exact ⟨hb, hm.superato ha.inv ha.ordinato hp hp' h.pronto hprec hprec', hbase⟩

theorem dietro_run (h : Run (Gara p) a ts b) (hD : Dietro p q k a)
    (ht : ∀ t ∈ ts, t ≠ .conta ∧ ¬ Turno t) : Dietro p q k b := by
  induction h with
  | nil => exact hD
  | @cons a c b t ts hG _ ih =>
    obtain ⟨hc, hturno⟩ := ht t List.mem_cons_self
    have hgrava : Grava p k c := hG.1.mossa.grava hG.1.inizio.inv hG.1.inizio.quanti
      hG.1.fine.quanti hG.1.inizio.contenuti le_rfl hG.2.1 hG.2.2 hc hturno hD.grava
    exact ih (hD.gara hG hgrava) fun u hu => ht u (List.mem_cons_of_mem t hu)

theorem Segnali.ferme (h : Segnali sig) : ∀ t ∈ sig, t ≠ .conta ∧ ¬ Turno t := by
  rcases h with rfl | rfl | ⟨r, -, rfl⟩ <;> simp [Turno]

/-- An entry after which `p` still wants to run leaves `q` behind it. -/
theorem Traccia.dietro {s : Kernel} {e : Evento} (h : Traccia s r e ts) (hr : Run (Gara p) a ts b)
    (hD : Dietro p q 0 a) : Dietro p q 0 b := by
  cases e with
  | chiamata x =>
    obtain ⟨t, sig, hx, hsig, rfl⟩ := h
    refine dietro_run hr hD fun u hu => ?_
    rcases List.mem_cons.mp hu with rfl | hu
    · exact ⟨hx.diChiamata.2.1, hx.diChiamata.2.2⟩
    · exact hsig.ferme u hu
  | chiamataErrata =>
    obtain rfl := show ts = [] from h
    cases hr
    exact hD
  | tick =>
    obtain ⟨sig, t, hsig, hturno, rfl⟩ := h
    cases hr with
    | cons hG₁ hrest =>
      cases hrest with
      | cons hG₂ hrest =>
        obtain ⟨a₃, hsigr, hlast⟩ := hrest.split
        cases hlast with
        | cons hG₄ hnil =>
          cases hnil
          have h₁ := dietro_run (.single hG₁) hD (by simp [Turno])
          have h₂ := h₁.gara hG₂ (hG₂.1.mossa.grava_conta hG₂.1.inizio.inv hG₂.1.inizio.quanti
            hG₂.1.fine.quanti hG₂.1.inizio.contenuti le_rfl hG₂.2.1 hG₂.2.2 h₁.grava)
          have h₃ := dietro_run hsigr h₂ hsig.ferme
          have hv := hG₄.1.inizio.inv.inGara_vivi hG₄.2.1
          exact h₃.gara hG₄ (hG₄.1.mossa.grava_turno hG₄.1.inizio.inv hG₄.1.inizio.quanti
            hG₄.1.fine.quanti hG₄.1.inizio.contenuti le_rfl hG₄.2.1 hG₄.2.2 hturno
            hG₄.1.inizio.contato (fun e => hG₄.1.moderati e p hv) h₃.grava)
  | tasto code =>
    refine dietro_run hr hD ?_
    rw [show ts = _ from h]
    split
    · split <;> simp [Turno]
    · simp
  | eccezione =>
    obtain rfl := show ts = [.termina r] from h
    exact dietro_run hr hD (by simp [Turno])
  | ritorno => exact absurd h id

end Mosse

/-- It runs or is ready. -/
def Kernel.InGara (s : Kernel) (p : Pid) : Prop := s.esecuzione = some p ∨ s.InPronti p

/-- An entry after which `p` still wants to run. -/
def Insiste (p : Pid) (s : Kernel) (e : Evento) (t : Kernel) : Prop :=
  Avanza Sobrio s e t ∧ t.InGara p

/-- `p` was put back by six at most, and since the last new priorities it has been charged for
ticks of this period and of one quantum. -/
def Kernel.Leggero (s : Kernel) (p : Pid) : Prop :=
  s.prec p ≤ (s.des (some p)).baseprec + 6 ∧
    (s.des (some p)).tickTotal + s.sospesi p ≤ QUANTUM + 1 + s.rescheduler

instance (s : Kernel) (p : Pid) : Decidable (s.Leggero p) := inferInstanceAs (Decidable (_ ∧ _))

/-- The ticks after which `p` has the CPU. -/
def TickInsiste (p : Pid) (s : Kernel) (e : Evento) : Prop :=
  Sobrio s e ∧ (passo s e).toOption.any fun t => t.esecuzione = some p

instance (p : Pid) (s : Kernel) (e : Evento) : Decidable (TickInsiste p s e) :=
  inferInstanceAs (Decidable (_ ∧ _))

end Pitos
