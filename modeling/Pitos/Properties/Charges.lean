import Pitos.Abstract.Charges
import Pitos.Properties.Activation
import Pitos.Properties.RoundRobin
import Pitos.Properties.Start
import Pitos.Refinement.Annotation

/-!
# The time charged to a process

`tick_addebitati`: along every run in which the idle process lives, no new priorities are given
to a process that has used its time, no handoff is made between processes with ticks on them and
none to nobody, what has been added to the `tickTotal` of a process that does not run is the
number of timer interrupts that found it running. The conditions on the entries are the places
where the code goes wrong: `cdriver_t` charges the running process before `reschedule` and
`schedulatore` charges it again, and `ki_sem_signal` gives the CPU away without the charge and
without a new quantum, also when it has taken nobody from an empty queue.
-/

namespace Pitos

open Lib

/-- The ticks of the running process that are not charged yet. -/
def Kernel.sospesi (s : Kernel) (p : Pid) : Int :=
  if s.esecuzione = some p then (s.des (some p)).tick else 0

/-- What has been added to `p->tickTotal` between two states. -/
def aggiunto (s t : Kernel) (p : Pid) : Int :=
  int32 ((t.des (some p)).tickTotal - (s.des (some p)).tickTotal)

/-- What `turno` adds. When new priorities are due there are two additions, with a `reschedule`
that clears the sums between them. -/
def aggiuntoTurno (s : Kernel) (p : Pid) : Int :=
  if int32 (s.rescheduler + 1) > RESCHEDULER then
    let s := { s with rescheduler := 0 }
    let t := s.aggiorna s.esecuzione DesProc.addebitato
    aggiunto s t p + match t.inserisciPronti t.esecuzione >>= fun t => reschedule t with
      | .ok u => aggiunto u (schedulatore u) p
      | .error _ => 0
  else
    match turno s with
    | .ok t => aggiunto s t p
    | .error _ => 0

/-- What a timer interrupt adds. -/
def aggiuntoTick (s : Kernel) (p : Pid) : Int :=
  match scadenze s >>= fun t => addebita t with
  | .ok t => aggiunto s t p + aggiuntoTurno t p
  | .error _ => 0

/-- `p` is the process that an activation starts. -/
def Kernel.Nuovo (s : Kernel) (p : Pid) : Prop :=
  s.procCount ≠ MAXPROCS ∧ s.cercaLibero = some p

instance (s : Kernel) (p : Pid) : Decidable (s.Nuovo p) := inferInstanceAs (Decidable (_ ∧ _))

/-- For each process the sum of what has been added to its `tickTotal` and the number of timer
interrupts that found it running, since its activation. -/
def conteggio : Annotazione (Pid → Int × Nat) where
  inizio _ := fun _ => (0, 0)
  avvio s v _ h :=
    match v with
    | .attiva .. => fun p => if s.Nuovo p then (0, 0) else h p
    | .semIni .. => h
  evento s e t h := fun p =>
    match e with
    | .chiamata (.activateP ..) =>
      if s.Nuovo p then (0, 0) else ((h p).1 + aggiunto s t p, (h p).2)
    | .tick => ((h p).1 + aggiuntoTick s p, (h p).2 + if s.esecuzione = some p then 1 else 0)
    | _ => ((h p).1 + aggiunto s t p, (h p).2)

/-- Every process that does not run has been charged for its ticks. -/
def Saldati (s : Kernel) (h : Pid → Int × Nat) : Prop :=
  ∀ p, s.esecuzione ≠ some p → (h p).1 = (h p).2

/-- No new priorities are due, unless the process that has used its time is killed; and a signal
that gives the CPU away gives it to a waiter, with no ticks on the two processes. -/
def Pulito (s : Kernel) : Evento → Prop
  | .tick => RESCHEDULER < int32 (s.rescheduler + 1) →
    ∃ p, s.esecuzione = some p ∧ (s.des (some p)).Muore
  | .chiamata (.semSignal hsem) => ¬ SvegliaNessuno s hsem ∧
    ∀ i p q, maniglia hsem = some i → s.esecuzione = some p → (s.dessem i).coda = some q →
      int32 ((s.dessem i).count + 1) ≤ 0 → s.prec q ≤ s.prec p →
      (s.des (some p)).tick = 0 ∧ (s.des (some q)).tick = 0
  | _ => True

variable {s t : Kernel} {a b : Astratto} {ts sig : List Atto} {p q : Pid} {e : Evento}

/-- The invariant: what is not charged yet is on the running process. -/
def Pari (s : Kernel) (h : Pid → Int × Nat) : Prop := ∀ p, (h p).1 + s.sospesi p = (h p).2

theorem Pari.saldati {h : Pid → Int × Nat} (hP : Pari s h) : Saldati s h := by
  intro p hp
  have := hP p
  rwa [Kernel.sospesi, if_neg hp, add_zero] at this

namespace Rappr

theorem sospesi (hR : Rappr s a) (p : Pid) : s.sospesi p = a.sospesi p := by
  unfold Kernel.sospesi Astratto.sospesi
  rw [hR.esecuzione, hR.tick]

theorem tickTotal (hR : Rappr s a) (p : Pid) :
    (s.des (some p)).tickTotal = (a.dati p).tickTotal := by
  have h := congrArg DesProc.tickTotal (hR.dati p)
  exact h

end Rappr

/-- Not more than the ticks of one quantum. -/
def Breve (x : Int) : Prop := 0 ≤ x ∧ x ≤ QUANTUM + 1

theorem Quanti.sospesi {n : Int} (hQ : Quanti n a) (hn : n ≤ QUANTUM + 1) (p : Pid) :
    Breve (a.sospesi p) := by
  unfold Astratto.sospesi
  split
  · rename_i he
    obtain ⟨h1, h2⟩ := hQ.esecuzione p he
    exact ⟨h1, h2.trans hn⟩
  · exact ⟨le_rfl, by decide⟩

/-- Accounts that agree modulo `2^32` say what was added exactly, because a quantum is short. -/
theorem aggiunto_eq {k : Int} (hR : Rappr s a) (hRt : Rappr t b) (ha : Breve (a.sospesi p))
    (hb : Breve (b.sospesi p)) (hk : 0 ≤ k) (hk' : k ≤ 1)
    (h : int32 (b.conto p) = int32 (a.conto p + k)) :
    aggiunto s t p = s.sospesi p + k - t.sospesi p := by
  obtain ⟨ha, ha'⟩ := ha
  obtain ⟨hb, hb'⟩ := hb
  have hmax : (QUANTUM : Int) + 2 ≤ INT_MAX := by decide
  have hmin : -2 ^ 31 ≤ -((QUANTUM : Int) + 1) := by decide
  have hdiff := int32_congr_add (-b.sospesi p - (a.dati p).tickTotal) h
  unfold aggiunto
  rw [hR.tickTotal, hRt.tickTotal, hR.sospesi, hRt.sospesi]
  unfold Astratto.conto at hdiff
  calc int32 ((b.dati p).tickTotal - (a.dati p).tickTotal)
      = int32 ((b.dati p).tickTotal + b.sospesi p + (-b.sospesi p - (a.dati p).tickTotal)) := by
        congr 1
        omega
    _ = int32 ((a.dati p).tickTotal + a.sospesi p + k +
          (-b.sospesi p - (a.dati p).tickTotal)) := hdiff
    _ = int32 (a.sospesi p + k - b.sospesi p) := by
        congr 1
        omega
    _ = a.sospesi p + k - b.sospesi p := int32_of_range (by omega) (by omega)

theorem Giro.breve (h : Giro a) (p : Pid) : Breve (a.sospesi p) :=
  h.quanti.sospesi (by decide) p

/-! ## The moves of an entry -/

/-- The moves that leave all accounts as they are, from the state in which they are made. -/
def Atto.Neutro (a : Astratto) (t : Atto) : Prop :=
  (∀ q k, t ≠ .attiva q k) ∧ t ≠ .conta ∧ t ≠ .rischedula ∧
    ∀ i q r, t = .cede i q r → (a.dati q).tick = 0 ∧ (a.dati r).tick = 0

theorem Mossa.conto_neutro {u : Atto} (h : Mossa a u b) (hu : u.Neutro a) (p : Pid) :
    int32 (b.conto p) = int32 (a.conto p) :=
  h.conto (hu.1 p) hu.2.1 hu.2.2.1 hu.2.2.2

theorem Segnali.conto (h : Segnali sig) (hr : Run Mossa a sig b) (p : Pid) :
    int32 (b.conto p) = int32 (a.conto p) := by
  have hdati : ∀ c, Atto.Neutro c .dati := fun c => by simp [Atto.Neutro]
  have htermina : ∀ c r, Atto.Neutro c (.termina r) := fun c r => by simp [Atto.Neutro]
  rcases h with rfl | rfl | ⟨r, -, rfl⟩
  · cases hr
    rfl
  · cases hr with
    | cons hm hnil =>
      cases hnil
      exact hm.conto_neutro (hdati _) p
  · cases hr with
    | cons hm hrest =>
      cases hrest with
      | cons hm' hnil =>
        cases hnil
        exact (hm'.conto_neutro (htermina _ r) p).trans (hm.conto_neutro (hdati _) p)

/-- The process that signal handling brings to the CPU has a new quantum. -/
theorem Segnali.sospesi (h : Segnali sig) (hr : Run Mossa a sig b) (hI : Inv a)
    (hq : a.esecuzione ≠ some q) : b.sospesi q = 0 := by
  have hdati : ∀ {c : Astratto}, Mossa a .dati c → c.esecuzione = a.esecuzione := fun hm => by
    cases hm with
    | dati r d he hp h => rfl
  rcases h with rfl | rfl | ⟨r, -, rfl⟩
  · cases hr
    exact Astratto.sospesi_of_ne hq
  · cases hr with
    | cons hm hnil =>
      cases hnil
      exact Astratto.sospesi_of_ne (hdati hm ▸ hq)
  · cases hr with
    | cons hm hrest =>
      cases hrest with
      | cons hm' hnil =>
        cases hnil
        obtain ⟨x, hx, h0⟩ := hm'.termina_tick (hm.inv hI)
        unfold Astratto.sospesi
        split
        · rename_i hbq
          rw [← Option.some.inj (hx.symm.trans hbq), h0]
        · rfl

/-- A call that is no activation. -/
theorem Compie.neutro {c : Chiamata} {u : Atto} (h : Compie s p c u) (hR : Rappr s a)
    (hm : Mossa a u b) (hP : Pulito s (.chiamata c))
    (hc : ∀ f k prec idx risu stk, c ≠ .activateP f k prec idx risu stk) : u.Neutro a := by
  cases c with
  | activateP f k prec idx risu stk => exact absurd rfl (hc f k prec idx risu stk)
  | semIni valore idx risu =>
    simp only [Compie] at h
    split at h <;> subst h <;> simp [Atto.Neutro]
  | semWait hsem =>
    simp only [Compie] at h
    split at h
    · subst h
      simp [Atto.Neutro]
    · rcases h with rfl | rfl <;> simp [Atto.Neutro]
  | semSignal hsem =>
    simp only [Compie] at h
    split at h
    · subst h
      simp [Atto.Neutro]
    · rename_i i hi
      rcases h with rfl | ⟨r, rfl | rfl⟩
      · simp [Atto.Neutro]
      · simp [Atto.Neutro]
      · cases hm with
        | cede _ _ _ l he hcount hq hprec =>
          have hcoda : (s.dessem i).coda = some r := by
            have h := (hR.coda i).head_eq
            rw [hq] at h
            exact h
          have hpr : ∀ x, s.prec x = a.prec x := hR.prec
          obtain ⟨hp0, hr0⟩ := hP.2 i p r hi (hR.esecuzione.trans he) hcoda
            (by rwa [hR.count]) (by rwa [hpr, hpr])
          rw [hR.tick] at hp0 hr0
          refine ⟨by rintro _ _ ⟨⟩, by rintro ⟨⟩, by rintro ⟨⟩, ?_⟩
          rintro _ _ _ ⟨⟩
          exact ⟨hp0, hr0⟩
  | terminateP =>
    obtain rfl := show u = .termina p from h
    simp [Atto.Neutro]
  | delay n z =>
    obtain rfl := show u = .dorme (n.tdiv 50) (z, p) from h
    simp [Atto.Neutro]
  | _ =>
    obtain rfl := show u = .dati from h
    simp [Atto.Neutro]

/-- What the moves of an entry other than an activation or a tick do to the accounts. -/
theorem Traccia.conto (h : Traccia s p e ts) (hR : Rappr s a) (hr : Run Mossa a ts b)
    (hP : Pulito s e) (ht : e ≠ .tick)
    (hc : ∀ f k prec idx risu stk, e ≠ .chiamata (.activateP f k prec idx risu stk)) (q : Pid) :
    int32 (b.conto q) = int32 (a.conto q) := by
  have huno : ∀ {u : Atto}, u.Neutro a → Run Mossa a [u] b →
      int32 (b.conto q) = int32 (a.conto q) := by
    intro u hu hr
    cases hr with
    | cons hm hnil =>
      cases hnil
      exact hm.conto_neutro hu q
  cases e with
  | chiamata c =>
    obtain ⟨u, sig, hu, hsig, rfl⟩ := h
    cases hr with
    | cons hm hrest =>
      have hneutro := hu.neutro hR hm hP fun f k prec idx risu stk hcc =>
        hc f k prec idx risu stk (congrArg Evento.chiamata hcc)
      exact (hsig.conto hrest q).trans (hm.conto_neutro hneutro q)
  | chiamataErrata =>
    obtain rfl := show ts = [] from h
    cases hr
    rfl
  | tick => exact absurd rfl ht
  | tasto code =>
    rw [show ts = _ from h] at hr
    split at hr
    · split at hr
      · exact huno (by simp [Atto.Neutro]) hr
      · exact huno (by simp [Atto.Neutro]) hr
    · cases hr
      rfl
  | eccezione =>
    rw [show ts = [.termina p] from h] at hr
    exact huno (by simp [Atto.Neutro]) hr
  | ritorno => exact absurd h id

/-! ## An activation -/

/-- An activation leaves the times of the others alone. -/
theorem kiActivatePLevel_conti {f k idx risu : Word} {prec level : Int} {stk : Fin 3 → Word}
    (hR : Rappr s a) (hI : Inv a) (h : kiActivatePLevel f k prec level idx risu stk s = .ok t) :
    t.esecuzione = s.esecuzione ∧ ∀ p, (s.Nuovo p → ¬ s.Vivo p) ∧ (¬ s.Nuovo p →
      (t.des (some p)).tickTotal = (s.des (some p)).tickTotal ∧
        (t.des (some p)).tick = (s.des (some p)).tick) := by
  by_cases hlt : s.procCount = MAXPROCS
  · simp only [kiActivatePLevel, hlt, if_true] at h
    obtain rfl := Except.ok.inj h
    exact ⟨rfl, fun p => ⟨fun hn => absurd hlt hn.1, fun _ => ⟨rfl, rfl⟩⟩⟩
  · obtain ⟨t', q, heq, hat⟩ := hR.kiActivatePLevel_attivato hI f k prec level idx risu stk hlt
    obtain rfl := Except.ok.inj (heq.symm.trans h)
    obtain ⟨pre, -, haltri⟩ := hat.altri
    refine ⟨?_, fun p => ⟨fun hn => ?_, fun hn => ?_⟩⟩
    · rw [kiActivatePLevel_libero hlt hat.trovato] at h
      obtain ⟨s₁, h₁, h₂⟩ := bind_ok h
      obtain rfl := Except.ok.inj h₂
      unfold Kernel.inserisciPronti at h₁
      split at h₁
      · cases h₁
      · obtain rfl := Except.ok.inj h₁
        rfl
    · obtain rfl := Option.some.inj (hat.trovato.symm.trans hn.2)
      exact hat.libero
    · have hpq : some p ≠ some q := fun e => hn ⟨hlt, by rw [hat.trovato, Option.some.inj e]⟩
      have hd := (haltri (some p) hpq).2
      exact ⟨by have h := congrArg DesProc.tickTotal hd; exact h,
        by have h := congrArg DesProc.tick hd; exact h⟩

theorem Pari.attiva {h : Pid → Int × Nat} {f k idx risu : Word} {prec level : Int}
    {stk : Fin 3 → Word} (hP : Pari s h) (hR : Rappr s a) (hI : Inv a)
    (heq : kiActivatePLevel f k prec level idx risu stk s = .ok t) :
    Pari t fun p => if s.Nuovo p then (0, 0) else h p := by
  obtain ⟨hesec, haltri⟩ := kiActivatePLevel_conti hR hI heq
  intro p
  have hp := hP p
  by_cases hn : s.Nuovo p
  · have hne : s.esecuzione ≠ some p := fun he => by
      have hv := hI.esecuzione_vivi (hR.esecuzione.symm.trans he)
      exact (haltri p).1 hn (hR.vivo_iff.mpr hv)
    simp only [if_pos hn, Kernel.sospesi, hesec, if_neg hne]
    rfl
  · have htick := ((haltri p).2 hn).2
    simp only [if_neg hn, Kernel.sospesi, hesec, htick] at hp ⊢
    exact hp

/-! ## A tick -/

/-- What the scheduler adds. -/
theorem aggiunto_schedulatore (hR : Rappr s a) (hS : Separati a) (ha : Breve (a.sospesi p))
    (hpronti : a.pronti ≠ []) : aggiunto s (schedulatore s) p = s.sospesi p := by
  have hRt := hR.schedulatore hS
  have h0 := Astratto.sospesi_schedulatore hpronti p
  rw [aggiunto_eq (k := 0) hR hRt ha (by rw [h0]; exact ⟨le_rfl, by decide⟩) le_rfl (by decide)
    (by rw [add_zero]; exact Astratto.conto_schedulatore a p), hRt.sospesi, h0]
  omega

/-- Charging a process without ticks adds nothing. -/
theorem aggiunto_addebitato {r : Pid} (hR : Rappr s a) (htick : (a.dati r).tick = 0) :
    aggiunto s (s.aggiorna (some r) DesProc.addebitato) p = 0 := by
  unfold aggiunto
  rw [(hR.aggiorna r DesProc.addebitato).tickTotal, hR.tickTotal, Astratto.dati_aggiorna]
  by_cases hp : p = r
  · subst hp
    rw [Function.update_self]
    show int32 (int32 ((a.dati p).tickTotal + (a.dati p).tick) - (a.dati p).tickTotal) = 0
    rw [htick, add_zero, sub_eq_add_neg, int32_add, Int.add_right_neg]
    rfl
  · rw [Function.update_of_ne hp, sub_self]
    rfl

/-- New priorities leave no ticks to be charged if the running process had none. -/
theorem sospesi_rischedulato {r : Pid} {n : Int} (hI : Inv a) (he : a.esecuzione = some r)
    (htick : (a.dati r).tick = 0) (p : Pid) :
    (((a.setRescheduler n).aggiorna r DesProc.addebitato).accoda r).reschedule.sospesi p = 0 := by
  unfold Astratto.sospesi
  rw [Astratto.esecuzione_reschedule, tick_reschedule (hI.accoda_nodup he)]
  split
  · rename_i hp
    have hpr : r = p := Option.some.inj (he.symm.trans hp)
    subst hpr
    rw [Astratto.dati_accoda, Astratto.dati_aggiorna, Function.update_self]
    exact htick
  · rfl

/-- The end of a tick charges what leaves the CPU once, unless new priorities are given to a
process with ticks on it. -/
theorem aggiuntoTurno_eq {u : Atto} {r : Pid} (hR : Rappr s a) (hI : Inv a)
    (hQ : Quanti (QUANTUM + 1) a) (he : a.esecuzione = some r)
    (h0 : RESCHEDULER < int32 (a.rescheduler + 1) → (a.dati r).tick = 0)
    (h : turno s = .ok t) (hm : Mossa a u b) (hu : Turno u) (hRt : Rappr t b) :
    aggiuntoTurno s p = s.sospesi p - t.sospesi p := by
  have hQb := hm.quanti_turno hu hI hQ
  have ha := hQ.sospesi le_rfl p
  have hb : Breve (b.sospesi p) := hQb.sospesi (by decide) p
  have hresc := hR.rescheduler
  unfold aggiuntoTurno
  by_cases hr : int32 (s.rescheduler + 1) > RESCHEDULER
  · rw [if_pos hr]
    have htick : (a.dati r).tick = 0 := h0 (hresc ▸ hr)
    have hesec : s.esecuzione = some r := hR.esecuzione.trans he
    -- the charge before the new priorities
    have hR₁ := (hR.setRescheduler 0).aggiorna r DesProc.addebitato
    have hprima := aggiunto_addebitato (p := p) (hR.setRescheduler 0) htick
    -- the new priorities, and the charge after them
    have hp0 := hI.inCoda_esecuzione he
    obtain ⟨s₂, heq₂, hR₂⟩ := hR₁.inserisciPronti hI.separati hp0
    have hS₂ : Separati (((a.setRescheduler 0).aggiorna r DesProc.addebitato).accoda r) :=
      hI.separati.accoda (a := (a.setRescheduler 0).aggiorna r DesProc.addebitato) hp0
    obtain ⟨s₃, heq₃, hR₃⟩ := hR₂.reschedule hS₂
    have hnodup : (((a.setRescheduler 0).aggiorna r DesProc.addebitato).accoda r).pronti.Nodup :=
      hI.accoda_nodup he
    have hS₃ : Separati
        (((a.setRescheduler 0).aggiorna r DesProc.addebitato).accoda r).reschedule := fun q =>
      (Astratto.inCoda_reschedule hnodup).trans_le (hS₂ q)
    have hsosp := sospesi_rischedulato (n := 0) hI he htick p
    have hdopo := aggiunto_schedulatore (p := p) hR₃ hS₃
      (by rw [hsosp]; exact ⟨le_rfl, by decide⟩)
      (Astratto.pronti_reschedule_ne_nil Astratto.pronti_accoda_ne_nil)
    -- nobody has uncharged ticks, before and after
    have hs : s.sospesi p = 0 := by
      unfold Kernel.sospesi
      split
      · rename_i hp
        rw [← Option.some.inj (hesec.symm.trans hp), hR.tick, htick]
      · rfl
    have ht : t.sospesi p = 0 := by
      rw [hRt.sospesi]
      cases hm with
      | rischedula q hq _ =>
        exact Astratto.sospesi_schedulatore
          (Astratto.pronti_reschedule_ne_nil Astratto.pronti_accoda_ne_nil) p
      | prosegue q hq hr' ht' => rw [hresc] at hr; omega
      | prelazione q hq hr' ht' => rw [hresc] at hr; omega
      | _ => rcases hu with hu | hu | hu <;> cases hu
    rw [← hesec] at hprima heq₂
    have hseconda : (match ((({ s with rescheduler := 0 } : Kernel).aggiorna s.esecuzione
        DesProc.addebitato).inserisciPronti s.esecuzione >>= fun t => reschedule t) with
        | .ok u => aggiunto u (schedulatore u) p
        | .error _ => 0) = 0 := by
      rw [heq₂]
      show (match reschedule s₂ with
        | .ok u => aggiunto u (schedulatore u) p
        | .error _ => 0) = 0
      rw [heq₃]
      exact hdopo.trans ((hR₃.sospesi p).trans hsosp)
    rw [hs, ht]
    exact congrArg₂ (· + ·) hprima hseconda
  · rw [if_neg hr, h]
    have hne : u ≠ .rischedula := by
      rintro rfl
      cases hm with
      | rischedula q hq hr' => exact hr (hresc ▸ hr')
    have hneutro : u.Neutro a := by
      rcases hu with rfl | rfl | rfl
      · simp [Atto.Neutro]
      · simp [Atto.Neutro]
      · exact absurd rfl hne
    have hconto := hm.conto_neutro hneutro p
    have := aggiunto_eq (k := 0) hR hRt ha hb le_rfl (by decide) (by rw [add_zero]; exact hconto)
    show aggiunto s t p = _
    omega

/-- A whole tick. -/
theorem aggiuntoTick_eq (hR : Rappr s a) (hA : Regolare a) (hG : Giro a) (hP : Pulito s .tick)
    (heq : passo s .tick = .ok t) (hv : t.Vivo idle) (p : Pid) :
    aggiuntoTick s p = s.sospesi p + (if s.esecuzione = some p then 1 else 0) - t.sospesi p := by
  obtain ⟨r, he⟩ := Option.ne_none_iff_exists'.mp hA.attivo
  obtain ⟨s₁, s₂, s₃, sig, u, a₂, b, h₁, h₂, h₃, hsig, hmuore, hu, -, hrun, hR₂, hA₂, hm, hR₃, h₄,
    hRt, -⟩ := hR.tick_mosse hA he heq hv
  have hI₁ := (Mossa.orologio (a := a)).inv hA.inv
  have hQ₁ : Quanti QUANTUM a.orologio :=
    Mossa.orologio.quanti hA.inv le_rfl hG.quanti (by rintro ⟨⟩) (by rintro _ _ ⟨⟩)
  have he₁ : a.orologio.esecuzione = some r := a.esecuzione_orologio.trans he
  -- up to the decision whose turn it is
  have hprima : int32 (a₂.conto p) = int32 (a.conto p + if s.esecuzione = some p then 1 else 0) ∧
      Quanti (QUANTUM + 1) a₂ ∧ a₂.rescheduler = a.rescheduler := by
    cases hrun with
    | cons hc hrest =>
      have horo := (Mossa.orologio (a := a)).conto_neutro (by simp [Atto.Neutro]) p
      refine ⟨?_, hsig.quanti hrest (hc.inv hI₁) (by decide) (hc.quanti_conta hI₁ hQ₁), ?_⟩
      · rw [hsig.conto hrest p, hc.conto_conta p, a.esecuzione_orologio, ← hR.esecuzione]
        exact int32_congr_add _ horo
      · have hresc : ∀ {ts : List Atto} {c d : Astratto}, Run Mossa c ts d →
            (∀ t ∈ ts, ¬ Turno t) → d.rescheduler = c.rescheduler := by
          intro ts c d hr ht
          induction hr with
          | nil => rfl
          | cons hx _ ih =>
            exact (ih fun t h => ht t (List.mem_cons_of_mem _ h)).trans
              (hx.rescheduler_eq (ht _ List.mem_cons_self))
        have hsigt : ∀ t ∈ sig, ¬ Turno t := by
          rcases hsig with rfl | rfl | ⟨x, -, rfl⟩ <;> simp [Turno]
        exact (hresc hrest hsigt).trans
          ((hc.rescheduler_eq (by simp [Turno])).trans
            (Mossa.orologio.rescheduler_eq (by simp [Turno])))
  obtain ⟨hconto, hQ₂, hresc⟩ := hprima
  obtain ⟨q, he₂⟩ := Option.ne_none_iff_exists'.mp hA₂.attivo
  -- who gets new priorities has the CPU since this tick only
  have hzero : RESCHEDULER < int32 (a₂.rescheduler + 1) → (a₂.dati q).tick = 0 := by
    intro hr
    rw [hresc, ← hR.rescheduler] at hr
    obtain ⟨r', hr', hmu⟩ := hP hr
    obtain rfl := Option.some.inj (he.symm.trans (hR.esecuzione.symm.trans hr'))
    have hmu' : (a.dati r).Muore := by
      rw [← hR.dati r]
      exact hmu
    obtain rfl := hmuore.mpr hmu'
    cases hrun with
    | cons hm₁ hrest =>
      cases hrest with
      | cons hm₂ hrest =>
        cases hrest with
        | cons hm₃ hnil =>
          cases hnil
          obtain ⟨x, hx, h0⟩ := hm₃.termina_tick (hm₂.inv (hm₁.inv hI₁))
          rw [← Option.some.inj (hx.symm.trans he₂), h0]
  have hturno := aggiuntoTurno_eq (p := p) hR₂ hA₂.inv hQ₂ he₂ hzero h₃ hm hu hR₃
  have hk : (0 : Int) ≤ (if s.esecuzione = some p then 1 else 0) ∧
      (if s.esecuzione = some p then (1 : Int) else 0) ≤ 1 := by
    split <;> decide
  have hcarica := aggiunto_eq hR hR₂ (hG.breve p) (hQ₂.sospesi le_rfl p) hk.1 hk.2 hconto
  have hfine : t.sospesi p = s₃.sospesi p := by
    rw [hRt.sospesi, hR₃.sospesi]
  have htick : aggiuntoTick s p = aggiunto s s₂ p + aggiuntoTurno s₂ p := by
    unfold aggiuntoTick
    rw [h₁]
    show (match addebita s₁ with
      | .ok t => aggiunto s t p + aggiuntoTurno t p
      | .error _ => 0) = _
    rw [h₂]
  rw [htick, hturno, hcarica, hfine]
  omega

/-! ## The run -/

/-- Every entry keeps the invariant. -/
theorem Pari.evento {h : Pid → Int × Nat} (hP : Pari s h) (hR : Rappr s a) (hA : Regolare a)
    (hG : Giro a) (he : a.esecuzione = some p) (hposs : Possibile s e) (hv : IdleVivo s e)
    (hp : Pulito s e) (heq : passo s e = .ok t) (hts : Traccia s p e ts) (hr : Run Mossa a ts b)
    (hRt : Rappr t b) (hGb : Giro b) : Pari t (conteggio.evento s e t h) := by
  -- an entry that adds what is no more uncharged
  have haltri : ∀ q, int32 (b.conto q) = int32 (a.conto q) →
      (h q).1 + aggiunto s t q + t.sospesi q = (h q).2 := by
    intro q hc
    have hadd := aggiunto_eq (k := 0) hR hRt (hG.breve q) (hGb.breve q) le_rfl (by decide)
      (by rw [add_zero]; exact hc)
    have := hP q
    omega
  by_cases hat : ∃ f k prec idx risu stk, e = .chiamata (.activateP f k prec idx risu stk)
  · obtain ⟨f, k, prec, idx, risu, stk, rfl⟩ := hat
    obtain ⟨⟨p', hesec, hpi⟩, -, -⟩ := hposs
    obtain rfl := Option.some.inj (hesec.symm.trans (hR.esecuzione.trans he))
    obtain ⟨s₁, h₁, h₂⟩ := bind_ok heq
    obtain ⟨hesec₁, hconti⟩ := kiActivatePLevel_conti hR hA.inv h₁
    have hP₁ := hP.attiva hR hA.inv h₁
    obtain ⟨s₁', u, b₁, heq₁, hu, hm, hR₁⟩ := hR.esegui_mossa hA.inv he hpi
      (.activateP f k prec idx risu stk) trivial id
    obtain rfl := Except.ok.inj (heq₁.symm.trans h₁)
    have hnc := hu.diChiamata
    have hA₁ := hA.mossa hm hnc.1 (hA.muto he hpi)
    obtain ⟨t', sig, b', heq', hsig, hrun, hRt', -⟩ :=
      hR₁.uscita_eq hA₁ (hm.muto hA.inv hnc.1 (hA.muto he hpi))
    obtain rfl := Except.ok.inj (heq'.symm.trans h₂)
    have hQ₁ := hm.quanti hA.inv le_rfl hG.quanti hnc.2.1 fun _ _ _ => rfl
    have hQ' := hsig.quanti hrun hA₁.inv le_rfl hQ₁
    intro q
    have hq := hP₁ q
    have hadd := aggiunto_eq (k := 0) hR₁ hRt' (hQ₁.sospesi (by decide) q)
      (hQ'.sospesi (by decide) q) le_rfl (by decide)
      (by rw [add_zero]; exact hsig.conto hrun q)
    show (if s.Nuovo q then ((0, 0) : Int × Nat) else ((h q).1 + aggiunto s t' q, (h q).2)).1 +
      t'.sospesi q = (if s.Nuovo q then ((0, 0) : Int × Nat) else
        ((h q).1 + aggiunto s t' q, (h q).2)).2
    by_cases hn : s.Nuovo q
    · have hne : b₁.esecuzione ≠ some q := by
        rw [← hR₁.esecuzione, hesec₁, hesec]
        intro e
        obtain rfl := Option.some.inj e
        exact (hconti p').1 hn (hR.vivo_iff.mpr (hA.inv.esecuzione_vivi he))
      rw [if_pos hn, hRt'.sospesi, hsig.sospesi hrun hA₁.inv hne]
      rfl
    · have htot := ((hconti q).2 hn).1
      have hadd' : aggiunto s t' q = aggiunto s₁' t' q := by
        unfold aggiunto
        rw [htot]
      simp only [if_neg hn] at hq ⊢
      rw [hadd', hadd]
      omega
  · by_cases htick : e = .tick
    · subst htick
      intro q
      have hq := hP q
      have hadd := aggiuntoTick_eq hR hA hG hp heq (hv t heq) q
      show (h q).1 + aggiuntoTick s q + t.sospesi q =
        (((h q).2 + if s.esecuzione = some q then 1 else 0 : Nat) : Int)
      rw [hadd]
      split <;> push_cast <;> omega
    · intro q
      have hc := hts.conto hR hr hp htick (fun f k prec idx risu stk h =>
        hat ⟨f, k, prec, idx, risu, stk, h⟩) q
      have hq := haltri q hc
      have hrec : conteggio.evento s e t h q = ((h q).1 + aggiunto s t q, (h q).2) := by
        cases e with
        | chiamata c =>
          cases c with
          | activateP f k prec idx risu stk => exact absurd ⟨f, k, prec, idx, risu, stk, rfl⟩ hat
          | _ => rfl
        | tick => exact absurd rfl htick
        | _ => rfl
      rw [hrec]
      exact hq

theorem tick_addebitati (es : List Evento) (x : Kernel × (Pid → Int × Nat))
    (h : conteggio.Raggiunge (fun s e => IdleVivo s e ∧ Pulito s e) es x) : Saldati x.1 x.2 := by
  obtain ⟨a, -, -, -, hP⟩ := h.segue (J := fun s a h => Giro a ∧ Pari s h) (fun _ _ hg => hg.1)
    (fun s₀ dummy risu stk s a hcar hinit hini hR => by
      refine ⟨hini.giro, ?_⟩
      intro p
      rw [hR.sospesi, Astratto.sospesi_of_ne (by rw [hini.esecuzione]; rintro ⟨⟩)]
      rfl)
    (by
      rintro s v t a ts b k hR hI heq hts hr hRt ⟨hG, hP⟩
      refine ⟨?_, ?_⟩
      · refine ⟨ordinato_run hr hI hG.ordinato, ?_⟩
        cases v with
        | attiva f h prec level idx risu stk =>
          rcases hts with rfl | ⟨q, rfl⟩
          · cases hr
            exact hG.quanti
          · cases hr with
            | cons hm hnil =>
              cases hnil
              exact hm.quanti hI le_rfl hG.quanti (by rintro ⟨⟩) (by rintro _ _ ⟨⟩)
        | semIni valore idx risu =>
          simp only [TracciaAvvio] at hts
          split at hts
          · subst hts
            cases hr
            exact hG.quanti
          · subst hts
            cases hr with
            | cons hm hnil =>
              cases hnil
              exact hm.quanti hI le_rfl hG.quanti (by rintro ⟨⟩) (by rintro _ _ ⟨⟩)
      · cases v with
        | attiva f h prec level idx risu stk => exact hP.attiva hR hI heq
        | semIni valore idx risu =>
          obtain rfl := Except.ok.inj heq
          intro p
          have hp := hP p
          have hs : (kiSemIni valore idx risu s).sospesi p = s.sospesi p := by
            unfold kiSemIni
            split <;> rfl
          rw [hs]
          exact hp)
    (by
      rintro s t a b k hR hI he heq hm hRt ⟨hG, hP⟩
      refine ⟨⟨hm.ordinato hI hG.ordinato,
        hm.quanti hI le_rfl hG.quanti (by rintro ⟨⟩) (by rintro _ _ ⟨⟩)⟩, fun p => ?_⟩
      have hp := hP p
      rw [hR.sospesi, Astratto.sospesi_of_ne (by rw [he]; rintro ⟨⟩)] at hp
      have hpronti : a.pronti ≠ [] := by
        rcases hI.idle with h | h
        · rw [he] at h
          cases h
        · exact List.ne_nil_of_mem h
      rw [hRt.sospesi]
      cases hm with
      | parte _ =>
        rw [Astratto.sospesi_schedulatore hpronti]
        exact hp)
    (by
      rintro s e t p ts a b k hR hA he hposs ⟨hv, hp⟩ heq hts hr hRt ⟨hG, hP⟩
      have hGb := hts.giro hr hA.inv hG
      exact ⟨hGb, hP.evento hR hA hG he hposs hv hp heq hts hr hRt hGb⟩)
  exact hP.saldati

/-- What is enough, as a test. -/
def semplice (s : Kernel) : Evento → Bool
  | .tick => int32 (s.rescheduler + 1) ≤ RESCHEDULER
  | .chiamata (.semSignal hsem) =>
    (maniglia hsem).all fun i => decide (0 < int32 ((s.dessem i).count + 1))
  | _ => true

theorem semplice_pulito (h : semplice s e = true) : Pulito s e := by
  unfold semplice at h
  unfold Pulito
  split at h
  · exact fun hr => absurd (of_decide_eq_true h) (not_le.mpr hr)
  · have hpos : ∀ i, maniglia _ = some i → 0 < int32 ((s.dessem i).count + 1) := fun i hi => by
      rw [hi] at h
      exact of_decide_eq_true h
    refine ⟨not_svegliaNessuno hpos, ?_⟩
    intro i _ _ hi _ _ hc _
    exact absurd hc (not_le.mpr (hpos i hi))
  · trivial

/-- A process sets up a semaphore, runs for two ticks, signals, and sleeps. -/
theorem tick_addebitati_corsa :
    ∃ x, conteggio.Raggiunge (fun s e => IdleVivo s e ∧ Pulito s e)
      [.chiamata (.semIni 0 0x5020 0x5024), .tick, .tick, .chiamata (.semSignal 19),
        .chiamata (.delay 100 1)] x ∧ (x.2 1).1 = 2 ∧ Saldati x.1 x.2 := by
  obtain ⟨x, hx, hP⟩ := Annotazione.prova_raggiunge (A := conteggio)
    (G := fun s e => IdleVivo s e ∧ semplice s e = true)
    [.attiva 0x7000 0 10 3 0x5010 0x5014 (pila 0x20000)]
    [.chiamata (.semIni 0 0x5020 0x5024), .tick, .tick, .chiamata (.semSignal 19),
      .chiamata (.delay 100 1)] (fun x => (x.2 1).1 = 2) (by decide +kernel)
  have hx' := hx.mono fun s e h => (⟨h.1, semplice_pulito h.2⟩ : IdleVivo s e ∧ Pulito s e)
  exact ⟨x, hx', of_decide_eq_true hP, tick_addebitati _ x hx'⟩

/-- A waiter gets the CPU from the process that signals, which has run for a tick: it is ready,
and has not been charged. -/
theorem tick_perduto :
    ∃ x, conteggio.Raggiunge IdleVivo [.chiamata (.semIni 0 0x5020 0x5024), .chiamata (.semWait 19),
      .tick, .chiamata (.semSignal 19)] x ∧ x.1.esecuzione = some 1 ∧ (x.2 2).1 = 0 ∧
        (x.2 2).2 = 1 ∧ ¬ Saldati x.1 x.2 := by
  obtain ⟨x, hx, hP⟩ := Annotazione.prova_raggiunge (A := conteggio) (G := IdleVivo)
    [.attiva 0x7000 0 10 3 0x5010 0x5014 (pila 0x20000),
      .attiva 0x7100 0 10 3 0x5018 0x501c (pila 0x24000)]
    [.chiamata (.semIni 0 0x5020 0x5024), .chiamata (.semWait 19), .tick,
      .chiamata (.semSignal 19)]
    (fun x => x.1.esecuzione = some 1 ∧ (x.2 2).1 = 0 ∧ (x.2 2).2 = 1) (by decide +kernel)
  obtain ⟨he, h1, h2⟩ := of_decide_eq_true hP
  refine ⟨x, hx, he, h1, h2, ?_⟩
  intro h
  have h3 := h 2 (by rw [he]; decide)
  rw [h1, h2] at h3
  cases h3

end Pitos
