import Pitos.Properties.Accounts
import Pitos.Properties.Dispatch

/-!
# A bounded wait

`attesa_limitata`: a ready process whose base priority is the best waits for a bounded number of
timer interrupts, whatever the others do, as long as the tick that gives new priorities does not
kill the process that runs (`Aspetta`). While it stays ready, the moves of an entry leave its
`attesa` as it is or make it less, and the turn at the end of a tick takes one away
(`Traccia.attesa`).
-/

namespace Pitos

open Lib

section Mosse

variable {a b c : Astratto} {t : Atto} {ts sig : List Atto} {p q r : Pid} {n m k : Int}

/-! ## Who stays ready -/

/-- The moves after which a process may be ready that was not before. -/
def Atto.Accoda : Atto → Prop
  | .prelazione | .rischedula => True
  | t => t.Apre

theorem Astratto.pronti_schedulatore_subset (h : q ∈ c.schedulatore.pronti) : q ∈ c.pronti := by
  cases hc : c.pronti with
  | nil =>
    have hs : c.schedulatore = c := by simp [schedulatore, hc]
    rw [hs, hc] at h
    exact h
  | cons r l =>
    rw [pronti_schedulatore hc] at h
    exact List.mem_cons_of_mem r h

theorem Mossa.pronto_prima (h : Mossa a t b) (ht : ¬ t.Accoda) (hq : q ∈ b.pronti) :
    q ∈ a.pronti := by
  cases h with
  | parte he => exact Astratto.pronti_schedulatore_subset hq
  | attiva r d he hfree hstato htick htotal hbase hmask hgestori => exact absurd trivial ht
  | termina r he hr =>
    have h := Astratto.pronti_schedulatore_subset hq
    exact h
  | blocca i r he hr hc =>
    have h := Astratto.pronti_schedulatore_subset hq
    exact h
  | sveglia i r q' l he hc hq' hprec => exact absurd trivial ht
  | cede i r q' l he hc hq' hprec => exact absurd trivial ht
  | dorme d x he hr hx =>
    have h := Astratto.pronti_schedulatore_subset hq
    exact h
  | orologio => exact absurd trivial ht
  | prelazione r he hr htick => exact absurd trivial ht
  | rischedula r he hr => exact absurd trivial ht
  | _ => exact hq

/-- The moves of a stretch in which `q` is ready all the time. -/
def Passa (q : Pid) (a : Astratto) (t : Atto) (b : Astratto) : Prop :=
  Regolata a t b ∧ q ∈ a.pronti ∧ q ∈ b.pronti

theorem passa_indietro (h : Run Regolata a ts b) (ht : ∀ t ∈ ts, ¬ t.Accoda) (hq : q ∈ b.pronti) :
    q ∈ a.pronti ∧ Run (Passa q) a ts b :=
  h.backward (P := fun a => q ∈ a.pronti)
    (fun _ _ t h hR hq => hR.mossa.pronto_prima (ht t h) hq) hq

theorem Segnali.accoda (h : Segnali sig) : ∀ t ∈ sig, ¬ t.Accoda := by
  rcases h with rfl | rfl | ⟨r, -, rfl⟩ <;> simp [Atto.Accoda, Atto.Apre]

theorem Astratto.pronti_orologio (hq : q ∈ a.pronti) : q ∈ a.orologio.pronti := by
  rw [Astratto.orologio, Astratto.svegliaTutti_eq]
  exact (fillByKey_perm _ _ _).mem_iff.mpr (List.mem_append_right _ hq)

/-- Signal handling gives the CPU to a ready process by ending the running one, and then with a
new quantum. -/
theorem Segnali.subentra (h : Segnali sig) (hI : Inv a) (hr : Run Regolata a sig b)
    (hq : q ∈ a.pronti) (he : b.esecuzione = some q) :
    (b.dati q).tick = 0 ∧ ∃ r, .termina r ∈ sig := by
  have hfermo : a.esecuzione ≠ some q := fun he => not_mem_pronti (hI.inCoda_esecuzione he) hq
  have hdati : ∀ {c : Astratto}, Mossa a .dati c → c.esecuzione = a.esecuzione := fun hm => by
    cases hm with
    | dati r d her hr h => rfl
  rcases h with rfl | rfl | ⟨r, -, rfl⟩
  · cases hr
    exact absurd he hfermo
  · cases hr with
    | cons hR hnil =>
      cases hnil
      exact absurd ((hdati hR.mossa).symm.trans he) hfermo
  · cases hr with
    | cons hR hrest =>
      cases hrest with
      | cons hR' hnil =>
        cases hnil
        obtain ⟨x, hx, h0⟩ := hR'.mossa.termina_tick hR'.inizio.inv
        obtain rfl := Option.some.inj (hx.symm.trans he)
        exact ⟨h0, r, by simp⟩

/-- A process that is ready before and after an entry is ready between its moves, unless the tick
that gives new priorities has ended the running process. -/
theorem Traccia.passa {s : Kernel} {e : Evento} (h : Traccia s p e ts) (hr : Run Regolata a ts b)
    (hq : q ∈ a.pronti) (hq' : q ∈ b.pronti) (hk : .rischedula ∈ ts → ∀ r, .termina r ∉ ts) :
    Run (Passa q) a ts b := by
  cases e with
  | chiamata x =>
    obtain ⟨t, sig, ht, hsig, rfl⟩ := h
    cases hr with
    | cons hR hrest =>
      obtain ⟨hc, hrun⟩ := passa_indietro hrest hsig.accoda hq'
      exact .cons ⟨hR, hq, hc⟩ hrun
  | chiamataErrata =>
    obtain rfl := show ts = [] from h
    cases hr
    exact .nil
  | tick =>
    obtain ⟨sig, t, hsig, ht, rfl⟩ := h
    cases hr with
    | @cons _ a₁ _ _ _ hR₁ hrest =>
      cases hrest with
      | @cons _ a₂ _ _ _ hR₂ hrest =>
        obtain ⟨a₃, hsigr, hlast⟩ := hrest.split
        cases hlast with
        | cons hR₄ hnil =>
          cases hnil
          have h₁ : q ∈ a₁.pronti := by
            have hm := hR₁.mossa
            cases hm with
            | orologio => exact Astratto.pronti_orologio hq
          have h₂ : q ∈ a₂.pronti := by
            have hm := hR₂.mossa
            cases hm with
            | conta r he => exact h₁
          have h₃ : q ∈ a₃.pronti := by
            have hgara : InGara q a₃ := hR₄.mossa.inGara_prima
              (by rcases ht with rfl | rfl | rfl <;> exact id) (Or.inr hq')
            refine hgara.resolve_left fun he => ?_
            obtain ⟨h0, r, hr⟩ := hsig.subentra hR₂.fine.inv hsigr h₂ he
            have hm := hR₄.mossa
            rcases ht with rfl | rfl | rfl
            · cases hm with
              | prosegue r he' hr htick =>
                exact not_mem_pronti (hR₄.inizio.inv.inCoda_esecuzione he) hq'
            · cases hm with
              | prelazione r he' hr htick =>
                obtain rfl := Option.some.inj (he'.symm.trans he)
                rw [h0] at htick
                exact absurd htick (by decide)
            · exact hk (by simp) r (by simp [hr])
          have hpassa := (passa_indietro hsigr hsig.accoda h₃).2
          exact .cons ⟨hR₁, hq, h₁⟩ (.cons ⟨hR₂, h₁, h₂⟩
            (hpassa.append (.single ⟨hR₄, h₃, hq'⟩)))
  | tasto code =>
    rw [show ts = _ from h] at hr ⊢
    refine (passa_indietro hr ?_ hq').2
    split
    · split <;> simp [Atto.Accoda, Atto.Apre]
    · simp
  | eccezione =>
    obtain rfl := show ts = [.termina p] from h
    exact (passa_indietro hr (by simp [Atto.Accoda, Atto.Apre]) hq').2
  | ritorno => exact absurd h id

/-! ## The interrupts that are missing -/

/-- The timer interrupts that a ready process may have to wait for, when it stays where it is. -/
def Astratto.attesa (a : Astratto) (q : Pid) : Int :=
  (RESCHEDULER + 1) * a.mancanti q + (RESCHEDULER - a.rescheduler)

/-- The base priority of `q` is `k`, and no other is better. -/
structure Primeggia (k : Int) (q : Pid) (a : Astratto) : Prop where
  base : (a.dati q).baseprec = k
  minimo : Minimo k a

theorem Passa.primeggia (h : Passa q a t b) (hk : Primeggia k q a)
    (ht : ∀ r j, t = .attiva r j → k ≤ j) : Primeggia k q b := by
  have hI := h.1.inizio.inv
  refine ⟨?_, h.1.mossa.minimo hI hk.minimo ht⟩
  rw [h.1.mossa.baseprec_eq hI (hI.pronti_vivi q h.2.1)]
  exact hk.base

theorem Passa.mancanti_le (h : Passa q a t b) (hk : Primeggia k q a)
    (ht : ∀ r j, t = .attiva r j → k ≤ j) :
    b.mancanti q ≤ a.mancanti q ∧ (t = .rischedula → b.mancanti q + 1 ≤ a.mancanti q) := by
  obtain ⟨⟨hm, ha, -, hmod⟩, hq, hq'⟩ := h
  exact hm.mancanti_le ha.inv ha.quanti ha.ordinato ha.contenuti le_rfl hmod
    (hk.base.symm ▸ hk.minimo) (hk.base.symm ▸ ht) hq hq'

/-- Between the turns nobody gets in front. -/
theorem Passa.attesa (h : Passa q a t b) (hk : Primeggia k q a)
    (ht : ∀ r j, t = .attiva r j → k ≤ j) (hturno : ¬ Turno t) : b.attesa q ≤ a.attesa q := by
  have hle := (h.mancanti_le hk ht).1
  unfold Astratto.attesa
  rw [h.1.mossa.rescheduler_eq hturno]
  simp only [RESCHEDULER]
  omega

/-- A turn shortens the wait. -/
theorem Passa.attesa_turno (h : Passa q a t b) (hk : Primeggia k q a) (hturno : Turno t) :
    b.attesa q + 1 ≤ a.attesa q := by
  obtain ⟨hle, hlt⟩ := h.mancanti_le hk (by rcases hturno with rfl | rfl | rfl <;> rintro _ _ ⟨⟩)
  unfold Astratto.attesa
  rcases h.1.mossa.rescheduler_turno hturno h.1.inizio.contato with ⟨hr, ha, hb⟩ | ⟨-, hb, -⟩
  · have hlt := hlt hr
    rw [ha, hb]
    simp only [RESCHEDULER]
    omega
  · rw [hb]
    simp only [RESCHEDULER]
    omega

theorem attesa_run (h : Run (Passa q) a ts b) (hk : Primeggia k q a)
    (ht : ∀ r j, .attiva r j ∈ ts → k ≤ j) (hturno : ∀ t ∈ ts, ¬ Turno t) :
    b.attesa q ≤ a.attesa q ∧ Primeggia k q b := by
  induction h with
  | nil => exact ⟨le_rfl, hk⟩
  | @cons a c b t ts hP _ ih =>
    have hfirst : ∀ r j, t = .attiva r j → k ≤ j := fun r j e => ht r j (e ▸ List.mem_cons_self)
    obtain ⟨hle, hfine⟩ := ih (hP.primeggia hk hfirst)
      (fun r j hj => ht r j (List.mem_cons_of_mem _ hj))
      fun t h => hturno t (List.mem_cons_of_mem _ h)
    exact ⟨hle.trans (hP.attesa hk hfirst (hturno _ List.mem_cons_self)), hfine⟩

theorem Segnali.turno (h : Segnali sig) : ∀ t ∈ sig, ¬ Turno t := by
  rcases h with rfl | rfl | ⟨r, -, rfl⟩ <;> simp [Turno]

/-- What happens in a tick before the turn. -/
theorem Segnali.prima (h : Segnali sig) : ∀ t ∈ Atto.orologio :: .conta :: sig, ¬ Turno t := by
  intro t ht
  rcases List.mem_cons.mp ht with rfl | ht
  · simp [Turno]
  · rcases List.mem_cons.mp ht with rfl | ht
    · simp [Turno]
    · exact h.turno t ht

/-- Only a tick ends with a turn. -/
theorem Traccia.turno {s : Kernel} {e : Evento} (h : Traccia s p e ts) (he : e ≠ .tick) :
    ∀ t ∈ ts, ¬ Turno t := by
  cases e with
  | chiamata x =>
    obtain ⟨t, sig, hx, hsig, rfl⟩ := h
    intro u hu
    rcases List.mem_cons.mp hu with rfl | hu
    · exact hx.diChiamata.2.2
    · exact hsig.turno u hu
  | chiamataErrata =>
    obtain rfl := show ts = [] from h
    simp
  | tick => exact absurd rfl he
  | tasto code =>
    rw [show ts = _ from h]
    split
    · split <;> simp [Turno]
    · simp
  | eccezione =>
    obtain rfl := show ts = [.termina p] from h
    simp [Turno]
  | ritorno => exact absurd h id

/-- An entry through which `q` stays ready: every timer interrupt shortens its wait. -/
theorem Traccia.attesa {s : Kernel} {e : Evento} (h : Traccia s p e ts) (hr : Run (Passa q) a ts b)
    (hk : Primeggia k q a) (ht : ∀ r j, .attiva r j ∈ ts → k ≤ j) :
    b.attesa q + battiti [e] ≤ a.attesa q ∧ Primeggia k q b := by
  by_cases he : e = .tick
  · subst he
    obtain ⟨sig, t, hsig, hturno, rfl⟩ := h
    have hr' : Run (Passa q) a ((.orologio :: .conta :: sig) ++ [t]) b := hr
    obtain ⟨a₃, hrun, hlast⟩ := hr'.split
    cases hlast with
    | cons hP hnil =>
      cases hnil
      obtain ⟨hle, hk₃⟩ := attesa_run hrun hk (fun r j hj => ht r j (by
        simpa using Or.inl (by simpa using hj))) hsig.prima
      have hlt := hP.attesa_turno hk₃ hturno
      have hone : battiti [Evento.tick] = 1 := rfl
      refine ⟨?_, hP.primeggia hk₃ (by rcases hturno with rfl | rfl | rfl <;> rintro _ _ ⟨⟩)⟩
      rw [hone]
      omega
  · obtain ⟨hle, hfine⟩ := attesa_run hr hk ht (h.turno he)
    refine ⟨?_, hfine⟩
    have hzero : battiti [e] = 0 := by
      cases e with
      | tick => exact absurd rfl he
      | _ => rfl
    rw [hzero]
    omega

end Mosse

/-! ## The runs -/

section Nucleo

variable {s t : Kernel} {a b : Astratto} {ts sig : List Atto} {es : List Evento} {e : Evento}
  {p q : Pid} {n k : Int}

/-- An entry through which `q` stays ready. No process with a better base priority is activated,
and the tick that gives new priorities does not kill the running process. -/
structure Aspetta (q : Pid) (s : Kernel) (e : Evento) (t : Kernel) : Prop where
  avanza : Avanza Sobrio s e t
  inizio : s.InPronti q
  fine : t.InPronti q
  attiva : ∀ f x prec idx risu stk, e = .chiamata (.activateP f x prec idx risu stk) →
    (s.des (some q)).baseprec ≤ prec
  uccide : e = .tick → RESCHEDULER < int32 (s.rescheduler + 1) →
    ∀ p, s.esecuzione = some p → ¬ (s.des (some p)).Muore

theorem Segnali.termina_unico (h : Segnali sig) (hr : Run Mossa a (.conta :: sig) b)
    (he : a.esecuzione = some p) (hq : .termina q ∈ sig) : sig = [.dati, .termina p] := by
  rcases h with rfl | rfl | ⟨r, -, rfl⟩
  · cases hq
  · simp at hq
  · cases hr with
    | cons hm hrest =>
      cases hrest with
      | cons hm' hrest =>
        cases hrest with
        | cons hm'' _ =>
          cases hm with
          | conta x hx =>
            cases hm' with
            | dati y d hy hne hd =>
              cases hm'' with
              | termina _ hz hzi =>
                have hzp : a.esecuzione = some r := hz
                rw [Option.some.inj (hzp.symm.trans he)]

/-- The moves of an entry, when the tick that gives new priorities ends no process. -/
theorem Rappr.mosse_senza_uccisioni (hR : Rappr s a) (hA : Regolare a) (hposs : Possibile s e)
    (heq : passo s e = .ok t) (hv : t.Vivo idle)
    (hk : e = .tick → RESCHEDULER < int32 (s.rescheduler + 1) →
      ∀ p, s.esecuzione = some p → ¬ (s.des (some p)).Muore) :
    ∃ r ts b, Traccia s r e ts ∧ Run Mossa a ts b ∧ Rappr t b ∧ Regolare b ∧
      (.rischedula ∈ ts → ∀ x, .termina x ∉ ts) := by
  by_cases htick : e = .tick
  · subst htick
    obtain ⟨p, he⟩ := Option.ne_none_iff_exists'.mp hA.attivo
    obtain ⟨-, -, -, sig, u, a₂, b, -, -, -, hsig, hmuore, hu, -, hrun, -, -, hm, -, -, hRt, hAb⟩ :=
      hR.tick_mosse hA he heq hv
    refine ⟨p, .orologio :: .conta :: (sig ++ [u]), b, ⟨sig, u, hsig, hu, rfl⟩,
      .cons .orologio (hrun.append (.single hm)), hRt, hAb, fun hr x hx => ?_⟩
    have hur : u = .rischedula := by
      rcases hsig with rfl | rfl | ⟨y, -, rfl⟩ <;> simpa [eq_comm] using hr
    have hxs : .termina x ∈ sig := by
      rw [hur] at hx
      simpa using hx
    have hresc : a₂.rescheduler = a.rescheduler :=
      Mossa.rescheduler_run (.cons .orologio hrun) hsig.prima
    have hguard : RESCHEDULER < int32 (a₂.rescheduler + 1) := by
      rw [hur] at hm
      cases hm with
      | rischedula y hy hr => exact hr
    rw [hresc, ← hR.rescheduler] at hguard
    refine hk rfl hguard p (hR.esecuzione.trans he) ?_
    have he' : a.orologio.esecuzione = some p := by rwa [Astratto.esecuzione_orologio]
    have := hmuore.mp (hsig.termina_unico hrun he' hxs)
    rw [← hR.dati p] at this
    exact this
  · obtain ⟨p, ts, b, he, hts, hrun, hRt, hAb⟩ := hR.mosse hA hposs heq hv
    exact ⟨p, ts, b, hts, hrun, hRt, hAb, fun hr =>
      absurd (Or.inr (Or.inr rfl)) (hts.turno htick _ hr)⟩

namespace Aspetta

/-- What an activation adds to the live processes is not better than `q`. -/
theorem nascite (h : Aspetta q s e t) (hts : Traccia s p e ts) (r : Pid) (j : Int)
    (hj : .attiva r j ∈ ts) : (s.des (some q)).baseprec ≤ j := by
  by_cases hat : e.Attiva
  · cases e with
    | chiamata c =>
      cases c with
      | activateP f x prec idx risu stk =>
        obtain ⟨u, sig, hu, hsig, rfl⟩ := hts
        rcases List.mem_cons.mp hj with rfl | hj
        · rcases hu with hu | ⟨y, hu⟩
          · cases hu
          · cases hu
            exact h.attiva _ _ _ _ _ _ rfl
        · exact absurd hj (hsig.attiva r j)
      | _ => exact absurd hat id
    | _ => exact absurd hat id
  · exact absurd hj (hts.attiva hat r j)

theorem passo (h : Aspetta q s e t) (hR : Rappr s a) (hA : Regolare a) (hB : Bilancio a)
    (hk : Primeggia k q a) : ∃ b, Rappr t b ∧ Regolare b ∧ Bilancio b ∧ Primeggia k q b ∧
      b.attesa q + battiti [e] ≤ a.attesa q := by
  obtain ⟨hposs, ⟨hv, hmis⟩, heq⟩ := h.avanza
  obtain ⟨r, ts, b, hts, hr, hRt, hAb, hfine⟩ :=
    hR.mosse_senza_uccisioni hA hposs heq (hv t heq) h.uccide
  obtain ⟨hC, hM⟩ := hR.misurato hmis hB.contenuti
  obtain ⟨hreg, hb⟩ := hts.regolata hr hA.inv hB.giro hB.contato hC hM
  have hpassa := hts.passa hreg (hR.inPronti_iff.mp h.inizio) (hRt.inPronti_iff.mp h.fine) hfine
  have hbase : (s.des (some q)).baseprec = k := (hR.baseprec q).trans hk.base
  obtain ⟨hle, hkb⟩ := hts.attesa hpassa hk (hbase ▸ h.nascite hts)
  exact ⟨b, hRt, hAb, ⟨hts.giro hr hA.inv hB.giro, hb.contato, hb.contenuti⟩, hkb, hle⟩

theorem corsa {us : List Evento} (h : Run (Aspetta q) s us t) (hR : Rappr s a) (hA : Regolare a)
    (hB : Bilancio a) (hk : Primeggia k q a) : ∃ b, Rappr t b ∧ Bilancio b ∧
      b.attesa q + battiti us ≤ a.attesa q := by
  induction h generalizing a with
  | nil => exact ⟨a, hR, hB, (add_zero _).le⟩
  | @cons s u t e us hstep _ ih =>
    obtain ⟨b, hRb, hAb, hBb, hkb, hle⟩ := hstep.passo hR hA hB hk
    obtain ⟨c, hRc, hBc, hle'⟩ := ih hRb hAb hBb hkb
    refine ⟨c, hRc, hBc, ?_⟩
    have hsum : battiti (e :: us) = battiti [e] + battiti us := by
      simp only [battiti, List.countP_cons, List.countP_nil]
      omega
    rw [hsum]
    push_cast
    omega

end Aspetta

/-- The wait is at most one period for each new priorities that are missing. -/
theorem Bilancio.attesa (hB : Bilancio a) (q : Pid) :
    0 ≤ a.attesa q ∧ a.attesa q ≤ 51 * a.mancanti q + 50 := by
  obtain ⟨h0, h1⟩ := hB.contato
  unfold Astratto.attesa
  simp only [RESCHEDULER] at h1 ⊢
  omega

end Nucleo

/-- A ready process that no other is better than by base priority gets the CPU after 1121 timer
interrupts at the latest. When it owes nothing and has its base priority, 51 for each process in
front of it are enough, and 50 to the next new priorities. So it is as long as the idle process
lives, the accounts are moderate and no tick that gives new priorities kills the running process. -/
theorem attesa_limitata (es : List Evento) (s : Kernel) (h : Raggiunge Sobrio es s) (q : Pid)
    (hmin : ∀ r, s.Vivo r → (s.des (some q)).baseprec ≤ (s.des (some r)).baseprec)
    (us : List Evento) (t : Kernel) (hrun : Run (Aspetta q) s us t) :
    battiti us ≤ 51 * (MAXPROCS + 1) + 50 ∧
      ∀ l, Linked (successore s.des) s.pronti l → (s.des (some q)).tickTotal = 0 →
        s.prec q = (s.des (some q)).baseprec → battiti us ≤ 51 * l.idxOf q + 50 := by
  obtain ⟨a, hR, hA, hB⟩ := h.bilancio
  have hk : Primeggia (a.dati q).baseprec q a := by
    refine ⟨rfl, fun r hr => ?_⟩
    have hle := hmin r (hR.vivo_iff.mpr hr)
    rwa [hR.baseprec, hR.baseprec] at hle
  obtain ⟨b, hRb, hBb, hle⟩ := Aspetta.corsa hrun hR hA hB hk
  have h0 := (hBb.attesa q).1
  have h1 := (hB.attesa q).2
  constructor
  · cases hrun with
    | nil => exact Nat.zero_le _
    | cons hstep _ =>
      have hmax := Astratto.mancanti_le hA.inv (hR.inPronti_iff.mp hstep.inizio)
      omega
  · intro l hl htotal hprec
    have hzero : a.mancanti q = l.idxOf q := by
      rw [hR.tickTotal] at htotal
      rw [hR.baseprec] at hprec
      have hp : a.prec q = (a.dati q).baseprec := (hR.prec q).symm.trans hprec
      unfold Astratto.mancanti Astratto.davanti
      rw [if_neg (not_not.mpr htotal), if_neg (not_not.mpr hp), hl.unique hR.pronti]
    omega

/-- The ticks of a stretch in which `q` is the first in the ready list. -/
def TickSobrio (p q : Pid) (s : Kernel) (e : Evento) : Prop :=
  TickPrima p q s e ∧ s.Misurato ∧ int32 (s.rescheduler + 1) ≤ RESCHEDULER

instance (p q : Pid) (s : Kernel) (e : Evento) : Decidable (TickSobrio p q s e) :=
  inferInstanceAs (Decidable (_ ∧ _))

theorem TickSobrio.aspetta {p q : Pid} {us : List Evento} {s t : Kernel}
    (h : Run (Avanza (TickSobrio p q)) s us t) (hs : ∃ a, Rappr s a ∧ Regolare a) :
    Run (Aspetta q) s us t := by
  refine h.strengthen (I := fun s => ∃ a, Rappr s a ∧ Regolare a) ?_ hs
  rintro s e t ⟨a, hR, hA⟩ ⟨hposs, ⟨⟨hv, hbat, hs, ht⟩, hmis, hresc⟩, heq⟩
  obtain ⟨r, ts, b, -, -, -, hRt, hAt⟩ := hR.mosse hA hposs heq (hv t heq)
  rw [heq] at ht
  refine ⟨⟨⟨hposs, ⟨hv, hmis⟩, heq⟩, (hs.attesa hR).pronto,
    (Prima.attesa (of_decide_eq_true ht) hRt).pronto, ?_, ?_⟩, b, hRt, hAt⟩
  · rintro f x prec idx risu stk rfl
    cases hbat
  · exact fun _ hlt => absurd hresc (not_le.mpr hlt)

/-- Of two processes of one priority the second waits for ten ticks. -/
theorem attesa_limitata_corsa : ∃ s us t, Raggiunge Sobrio [] s ∧ Run (Aspetta 2) s us t ∧
    battiti us = 10 ∧ battiti us ≤ 51 * (MAXPROCS + 1) + 50 := by
  obtain ⟨x, hx, hP⟩ := Sistema.prova_raggiunge (B := fun _ => True)
    (G := fun x e => Sobrio x.kernel e)
    [.attiva 0x7000 0 10 3 0x5010 0x5014 (pila 0x20000),
      .attiva 0x7100 0 10 3 0x5018 0x501c (pila 0x22000)] []
    (fun x => (exec (Sistema.tenta fun x e => TickSobrio 1 2 x.kernel e) x
        (List.replicate 10 .tick)).isSome &&
      decide (∀ r, x.kernel.Vivo r →
        (x.kernel.des (some 2)).baseprec ≤ (x.kernel.des (some r)).baseprec)) (by decide +kernel)
  obtain ⟨hexec, hmin⟩ := Bool.and_eq_true_iff.mp hP
  obtain ⟨y, hy⟩ := Option.isSome_iff_exists.mp hexec
  have hs := hx.kernel (H := Sobrio) fun _ _ h => h
  have hrun : Run (Avanza (TickSobrio 1 2)) x.kernel (List.replicate 10 .tick) y.kernel :=
    (exec_run hy).map (f := Sistema.kernel) fun _ _ _ h => by
      have hp := Sistema.tenta_passo h
      exact ⟨hp.1, hp.2.1, hp.2.2.1⟩
  obtain ⟨a, hR, hA, -⟩ := hs.bilancio
  have haspetta := TickSobrio.aspetta hrun ⟨a, hR, hA⟩
  exact ⟨_, _, _, hs, haspetta, rfl,
    (attesa_limitata [] _ hs 2 (of_decide_eq_true hmin) _ _ haspetta).1⟩

end Pitos
