import Pitos.Abstract.Precedence
import Pitos.Properties.Charges
import Pitos.Properties.Stacks

/-!
# What holds between the moves

In the runs in which no account and no base priority comes near the end of the range of `int`
(`Sobrio`) nothing that `cdriver_t`, `schedulatore` and `reschedule` add up wraps. `InRegola` is
what holds in them between any two moves of an entry (`Traccia.regolata`), `Bilancio` what holds
between the entries (`Raggiunge.bilancio`).
-/

namespace Pitos

open Lib

/-- No account and no base priority is near the end of the range of `int`. -/
def Kernel.Misurato (s : Kernel) : Prop :=
  ∀ p, s.Vivo p → (s.des (some p)).tickTotal ≤ LIMITE ∧ Moderato (s.des (some p))

def Sobrio (s : Kernel) (e : Evento) : Prop := IdleVivo s e ∧ s.Misurato

instance (d : DesProc) : Decidable (Moderato d) := inferInstanceAs (Decidable (_ ∧ _))

instance (s : Kernel) : Decidable s.Misurato := inferInstanceAs (Decidable (∀ _, _))

instance (s : Kernel) (e : Evento) : Decidable (Sobrio s e) := inferInstanceAs (Decidable (_ ∧ _))

section Mosse

variable {a b c : Astratto} {t : Atto} {ts sig : List Atto} {p q r : Pid} {n m k : Int}

/-- The order of the ready list, the bounds on the ticks and on the accounts. -/
structure InRegola (n : Int) (a : Astratto) : Prop where
  inv : Inv a
  ordinato : Ordinato a
  quanti : Quanti (QUANTUM + 1) a
  contato : Contato a
  contenuti : Contenuti n a

/-- A move between two such states, with the bounds that new priorities need. -/
structure Regolata (a : Astratto) (t : Atto) (b : Astratto) : Prop where
  mossa : Mossa a t b
  inizio : InRegola (LIMITE + 100) a
  fine : InRegola (LIMITE + 100) b
  moderati : t = .rischedula → ∀ q ∈ a.vivi, Moderato (a.dati q)

theorem Quanti.mono (h : Quanti n a) (hnm : n ≤ m) : Quanti m a :=
  ⟨fun p hp => ⟨(h.esecuzione p hp).1, (h.esecuzione p hp).2.trans hnm⟩, h.coda⟩

theorem InRegola.mono (h : InRegola n a) (hnm : n ≤ m) : InRegola m a :=
  ⟨h.inv, h.ordinato, h.quanti, h.contato, h.contenuti.mono hnm⟩

theorem InRegola.mossa (h : InRegola n a) (hm : Mossa a t b) (hQ : Quanti (QUANTUM + 1) b)
    (hn : n + 11 ≤ LIMITE + 100) (hM : t = .rischedula → ∀ q ∈ a.vivi, Moderato (a.dati q)) :
    Regolata a t b ∧ InRegola (n + 11) b := by
  have hC := hm.contenuti h.inv h.quanti h.contenuti (by omega) hM
  have hb : InRegola (n + 11) b := by
    refine ⟨hm.inv h.inv, hm.ordinato h.inv h.ordinato, hQ, hm.contato h.contato, hC.mono ?_⟩
    simp only [QUANTUM]
    omega
  exact ⟨⟨hm, h.mono (by omega), hb.mono hn, hM⟩, hb⟩

/-- Signal handling. -/
theorem InRegola.segnali (h : InRegola n a) (hsig : Segnali sig) (hr : Run Mossa a sig b)
    (hn : n + 22 ≤ LIMITE + 100) : Run Regolata a sig b ∧ InRegola (n + 22) b := by
  have hfermo : ∀ {k : Int} {a b : Astratto} {t : Atto}, InRegola k a → Mossa a t b →
      k + 11 ≤ LIMITE + 100 → t = .dati ∨ (∃ p, t = .termina p) →
      Regolata a t b ∧ InRegola (k + 11) b := by
    intro k a b t hk hm hle ht
    have hQ : Quanti (QUANTUM + 1) b := hm.quanti hk.inv (by decide) hk.quanti
      (by rcases ht with rfl | ⟨p, rfl⟩ <;> rintro ⟨⟩)
      fun i r e => by rcases ht with rfl | ⟨p, rfl⟩ <;> cases e
    refine hk.mossa hm hQ hle fun e => ?_
    rcases ht with rfl | ⟨p, rfl⟩ <;> cases e
  rcases hsig with rfl | rfl | ⟨p, -, rfl⟩
  · cases hr
    exact ⟨.nil, h.mono (by omega)⟩
  · cases hr with
    | cons hm hnil =>
      cases hnil
      obtain ⟨hR, hb⟩ := hfermo h hm (by omega) (Or.inl rfl)
      exact ⟨.single hR, hb.mono (by omega)⟩
  · cases hr with
    | cons hm hrest =>
      cases hrest with
      | cons hm' hnil =>
        cases hnil
        obtain ⟨hR, hb⟩ := hfermo h hm (by omega) (Or.inl rfl)
        obtain ⟨hR', hb'⟩ := hfermo hb hm' (by omega) (Or.inr ⟨p, rfl⟩)
        exact ⟨.cons hR (.single hR'), hb'.mono (by omega)⟩

theorem Mossa.moderati (h : Mossa a t b) (hI : Inv a) (ht : ∀ r k, t ≠ .attiva r k)
    (hM : ∀ q ∈ a.vivi, Moderato (a.dati q)) : ∀ q ∈ b.vivi, Moderato (b.dati q) := by
  intro q hq
  rw [h.vivi_eq hI] at hq
  rcases Atto.mem_vivi hq with hq | ⟨k, hk⟩
  · unfold Moderato
    rw [h.baseprec_eq hI hq]
    exact hM q hq
  · exact absurd hk (ht q k)

theorem Mossa.moderati_run (h : Run Mossa a ts b) (hI : Inv a) (ht : ∀ r k, .attiva r k ∉ ts)
    (hM : ∀ q ∈ a.vivi, Moderato (a.dati q)) : ∀ q ∈ b.vivi, Moderato (b.dati q) := by
  induction h with
  | nil => exact hM
  | cons hm _ ih =>
    refine ih (hm.inv hI) (fun r k hk => ht r k (List.mem_cons_of_mem _ hk)) ?_
    exact hm.moderati hI (fun r k e => ht r k (e ▸ List.mem_cons_self)) hM

/-- Every entry keeps to the rules between its moves. -/
theorem Traccia.regolata {s : Kernel} {e : Evento} (h : Traccia s p e ts) (hr : Run Mossa a ts b)
    (hI : Inv a) (hG : Giro a) (hcount : Contato a) (hC : Contenuti LIMITE a)
    (hM : ∀ q ∈ a.vivi, Moderato (a.dati q)) :
    Run Regolata a ts b ∧ InRegola (LIMITE + 100) b := by
  have h0 : InRegola LIMITE a := ⟨hI, hG.ordinato, hG.quanti.mono (by decide), hcount, hC⟩
  have huno : ∀ {t : Atto}, Run Mossa a [t] b → t ≠ .conta → (∀ i p, t ≠ .blocca i p) →
      t ≠ .rischedula → Run Regolata a [t] b ∧ InRegola (LIMITE + 100) b := by
    intro t hr ht hb hn
    cases hr with
    | cons hm hnil =>
      cases hnil
      obtain ⟨hR, hb⟩ := h0.mossa hm (hm.quanti hI (by decide) h0.quanti ht fun i p e =>
        absurd e (hb i p)) (by decide) fun e => absurd e hn
      exact ⟨.single hR, hb.mono (by decide)⟩
  cases e with
  | chiamata x =>
    obtain ⟨t, sig, ht, hsig, rfl⟩ := h
    cases hr with
    | cons hm hrest =>
      have hQ := hm.quanti hI le_rfl hG.quanti ht.diChiamata.2.1 fun _ _ _ => rfl
      obtain ⟨hR, hb⟩ := h0.mossa hm (hQ.mono (by decide)) (by decide) fun e =>
        absurd (Or.inr (Or.inr e)) ht.diChiamata.2.2
      obtain ⟨hR', hb'⟩ := hb.segnali hsig hrest (by decide)
      exact ⟨.cons hR hR', hb'.mono (by decide)⟩
  | chiamataErrata =>
    obtain rfl := show ts = [] from h
    cases hr
    exact ⟨.nil, h0.mono (by decide)⟩
  | tick =>
    obtain ⟨sig, t, hsig, ht, rfl⟩ := h
    cases hr with
    | @cons _ a₁ _ _ _ hm₁ hrest =>
      cases hrest with
      | @cons _ a₂ _ _ _ hm₂ hrest =>
        obtain ⟨a₃, hsigr, hlast⟩ := hrest.split
        cases hlast with
        | cons hm₃ hnil =>
          cases hnil
          have hQ₁ := hm₁.quanti hI le_rfl hG.quanti (by rintro ⟨⟩) (by rintro _ _ ⟨⟩)
          obtain ⟨hR₁, h₁⟩ := h0.mossa hm₁ (hQ₁.mono (by decide)) (by decide) (by rintro ⟨⟩)
          obtain ⟨hR₂, h₂⟩ := h₁.mossa hm₂ (hm₂.quanti_conta h₁.inv hQ₁) (by decide) (by rintro ⟨⟩)
          obtain ⟨hR₃, h₃⟩ := h₂.segnali hsig hsigr (by decide)
          have hM₂ := hm₂.moderati h₁.inv (by rintro _ _ ⟨⟩) (hm₁.moderati hI (by rintro _ _ ⟨⟩) hM)
          have hM₃ := Mossa.moderati_run hsigr h₂.inv
            hsig.attiva hM₂
          obtain ⟨hR₄, h₄⟩ := h₃.mossa hm₃ ((hm₃.quanti_turno ht h₃.inv h₃.quanti).mono (by decide))
            (by decide) fun _ => hM₃
          exact ⟨.cons hR₁ (.cons hR₂ (hR₃.append (.single hR₄))), h₄.mono (by decide)⟩
  | tasto code =>
    rw [show ts = _ from h] at hr ⊢
    split
    · rename_i hcode
      rw [if_pos hcode] at hr
      split
      · rename_i hp
        rw [if_pos hp] at hr
        exact huno hr (by rintro ⟨⟩) (by rintro _ _ ⟨⟩) (by rintro ⟨⟩)
      · rename_i hp
        rw [if_neg hp] at hr
        exact huno hr (by rintro ⟨⟩) (by rintro _ _ ⟨⟩) (by rintro ⟨⟩)
    · rename_i hcode
      rw [if_neg hcode] at hr
      cases hr
      exact ⟨.nil, h0.mono (by decide)⟩
  | eccezione =>
    obtain rfl := show ts = [.termina p] from h
    exact huno hr (by rintro ⟨⟩) (by rintro _ _ ⟨⟩) (by rintro ⟨⟩)
  | ritorno => exact absurd h id

end Mosse

section Nucleo

variable {s t : Kernel} {a b : Astratto} {ts sig : List Atto} {es : List Evento} {e : Evento}
  {p q : Pid} {n k : Int}

/-- What holds between the entries. -/
structure Bilancio (a : Astratto) : Prop where
  giro : Giro a
  contato : Contato a
  contenuti : Contenuti (LIMITE + 100) a

theorem Rappr.baseprec (hR : Rappr s a) (p : Pid) :
    (s.des (some p)).baseprec = (a.dati p).baseprec := by
  have h := congrArg DesProc.baseprec (hR.dati p)
  exact h

theorem Rappr.misurato (hR : Rappr s a) (hs : s.Misurato) (hC : Contenuti n a) :
    Contenuti LIMITE a ∧ ∀ q ∈ a.vivi, Moderato (a.dati q) := by
  have hvivo : ∀ q ∈ a.vivi, s.Vivo q := fun q hq => hR.vivo_iff.mpr hq
  constructor
  · intro q hq
    have htotal := (hs q (hvivo q hq)).1
    rw [hR.tickTotal] at htotal
    exact ⟨(hC q hq).nonneg, htotal, (hC q hq).prec⟩
  · intro q hq
    have hbase := (hs q (hvivo q hq)).2
    unfold Moderato at hbase ⊢
    rwa [hR.baseprec] at hbase

/-- The accounts are empty when the idle process is made. -/
theorem kernelInit_contenuti {s₀ : Kernel} {dummy risu : Word} {stk : Fin 3 → Word}
    (hcar : Caricato s₀) (h : kernelInit dummy risu stk s₀ = .ok s) (hR : Rappr s a)
    (hini : Iniziale a) : Contenuti 0 a := by
  let s₁ : Kernel := { s₀ with
    currentPage := 0
    des := fun p => if p = none then s₀.des none else { s₀.des p with stato := .FREE }
    dessem := fun i => { s₀.dessem i with busy := false }
    tssEsp0 := s₀.link.sysStack + 4095 }
  have h₁ : kiActivatePLevel s₁.link.dummyproc 0 3000 0 dummy risu stk s₁ = .ok s := h
  have hlt : s₁.procCount ≠ MAXPROCS := by
    rw [show s₁.procCount = 0 from hcar.procCount]
    decide
  have hq : s₁.cercaLibero = some idle := by
    unfold Kernel.cercaLibero
    rw [List.finRange_succ, List.find?_cons_of_pos]
    rfl
  have hnuovo := (hR.dati idle).symm.trans (kiActivatePLevel_nuovo hlt hq h₁)
  intro q hq'
  rw [hini.vivi] at hq'
  obtain rfl := Finset.mem_singleton.mp hq'
  rw [hnuovo]
  exact ⟨le_rfl, le_rfl, le_rfl⟩

theorem TracciaAvvio.atti {v : Avvio} (h : TracciaAvvio s v ts) :
    ts = [] ∨ (∃ q k, ts = [.attiva q k]) ∨ ∃ i k, ts = [.semIni i k] := by
  cases v with
  | attiva f x prec level idx risu stk =>
    rcases h with rfl | ⟨q, rfl⟩
    · exact Or.inl rfl
    · exact Or.inr (Or.inl ⟨q, prec, rfl⟩)
  | semIni valore idx risu =>
    simp only [TracciaAvvio] at h
    split at h
    · exact Or.inl h
    · exact Or.inr (Or.inr ⟨_, valore, h⟩)

/-- The calls of `cmain` charge nobody. -/
theorem Bilancio.avvio {v : Avvio} (hB : Bilancio a) (h : TracciaAvvio s v ts)
    (hr : Run Mossa a ts b) (hI : Inv a) : Bilancio b := by
  have huno : ∀ {t : Atto}, Mossa a t b → t ≠ .conta → Contenuti (LIMITE + 100) b → Bilancio b :=
    fun hm ht hC => ⟨⟨hm.ordinato hI hB.giro.ordinato,
      hm.quanti hI le_rfl hB.giro.quanti ht fun _ _ _ => rfl⟩, hm.contato hB.contato, hC⟩
  rcases h.atti with rfl | ⟨q, k, rfl⟩ | ⟨i, k, rfl⟩
  · cases hr
    exact hB
  · cases hr with
    | cons hm hnil =>
      cases hnil
      refine huno hm (by rintro ⟨⟩) ?_
      intro r hv
      rw [hm.vivi_eq hI] at hv
      rcases Finset.mem_insert.mp hv with rfl | hvivo
      · obtain ⟨htotal, -, hbase, hprec⟩ := hm.attiva_dati
        exact ⟨htotal.ge, htotal.trans_le (by decide), hbase.trans_le hprec.ge⟩
      · have hr' := hB.contenuti r hvivo
        cases hm with
        | attiva _ d he hfree hstato htick htotal hbase hmask hgestori =>
          have hne : r ≠ q := fun e => Astratto.mem_vivi.mp hvivo (e ▸ hfree)
          rw [Astratto.dati_accoda]
          show Contenuto _ ((a.aggiorna q fun _ => d).dati r)
          rwa [Astratto.dati_aggiorna, Function.update_of_ne hne]
  · cases hr with
    | cons hm hnil =>
      cases hnil
      refine huno hm (by rintro ⟨⟩) ?_
      cases hm with
      | semIni _ _ hbusy => exact hB.contenuti

/-- A run without a record. -/
def senzaRegistro : Annotazione Unit := ⟨fun _ => (), fun _ _ _ h => h, fun _ _ _ h => h⟩

theorem Raggiunge.senzaRegistro {G : Kernel → Evento → Prop} (h : Raggiunge G es s) :
    senzaRegistro.Raggiunge G es (s, ()) := by
  obtain ⟨s₀, ⟨s₁, dummy, risu, stk, s₂, avvii, s₃, hcar, hinit, hrun, hgo⟩, hes⟩ := h
  exact ⟨(s₀, ()), ⟨s₁, dummy, risu, stk, s₂, avvii, (s₃, ()), hcar, hinit,
    hrun.map (f := fun s => (s, ())) fun _ _ _ hv => ⟨hv, rfl⟩, hgo, rfl⟩,
    hes.map (f := fun s => (s, ())) fun _ _ _ hp => ⟨hp, rfl⟩⟩

theorem Raggiunge.bilancio (h : Raggiunge Sobrio es s) :
    ∃ a, Rappr s a ∧ Regolare a ∧ Bilancio a := by
  refine h.senzaRegistro.segue (J := fun _ a _ => Bilancio a) (fun _ _ h => h.1) ?_ ?_ ?_ ?_
  · intro s₀ dummy risu stk s a hcar hinit hini hR
    refine ⟨hini.giro, ⟨hini.rescheduler.ge, by rw [hini.rescheduler]; decide⟩, ?_⟩
    exact (kernelInit_contenuti hcar hinit hR hini).mono (by decide)
  · intro s v t a ts b _ hR hI _ hts hr _ hB
    exact hB.avvio hts hr hI
  · intro s t a b _ hR hI he _ hm _ hB
    refine ⟨⟨hm.ordinato hI hB.giro.ordinato,
      hm.quanti hI le_rfl hB.giro.quanti (by rintro ⟨⟩) (by rintro _ _ ⟨⟩)⟩,
      hm.contato hB.contato, ?_⟩
    intro q hq
    rw [hm.vivi_eq hI] at hq
    obtain ⟨h0, h1, hprec⟩ := hB.contenuti q hq
    have htotal := (hm.tickTotal_cases (by rintro ⟨⟩) hq).resolve_right fun h => by
      rw [he] at h
      cases h.1
    have hbase := hm.baseprec_eq hI hq
    have hp : b.prec q = a.prec q := hm.prec_eq hI hq (by rintro ⟨⟩)
    refine ⟨h0.trans htotal.ge, htotal.trans_le h1, ?_⟩
    rw [hbase]
    exact hprec.trans hp.ge
  · intro s e t p ts a b _ hR hA he _ hG _ hts hr _ hB
    obtain ⟨hC, hM⟩ := hR.misurato hG.2 hB.contenuti
    obtain ⟨-, hb⟩ := hts.regolata hr hA.inv hB.giro hB.contato hC hM
    exact ⟨hts.giro hr hA.inv hB.giro, hb.contato, hb.contenuti⟩

/-- An entry that leaves the rules in force, with its moves. -/
theorem Rappr.sobrio (hR : Rappr s a) (hA : Regolare a) (hB : Bilancio a)
    (hav : Avanza Sobrio s e t) :
    ∃ r ts b, a.esecuzione = some r ∧ Traccia s r e ts ∧ Run Regolata a ts b ∧ Rappr t b ∧
      Regolare b ∧ Bilancio b := by
  obtain ⟨hposs, ⟨hv, hmis⟩, heq⟩ := hav
  obtain ⟨r, ts, b, he, hts, hr, hRt, hAb⟩ := hR.mosse hA hposs heq (hv t heq)
  obtain ⟨hC, hM⟩ := hR.misurato hmis hB.contenuti
  obtain ⟨hreg, hb⟩ := hts.regolata hr hA.inv hB.giro hB.contato hC hM
  exact ⟨r, ts, b, he, hts, hreg, hRt, hAb, hts.giro hr hA.inv hB.giro, hb.contato, hb.contenuti⟩

end Nucleo

end Pitos
