import Pitos.Properties.Activation
import Pitos.Refinement.Annotation

/-!
# The memory of the stacks

`ki_activate_p_level` allocates three stacks and nothing takes them back: in `ki_terminate_p`
the call of `dealloca_stack` is commented out. `pile_rese` counts what this costs: after any
run in which the idle process lives the stacks held are those of the live processes if and only
if no process has terminated, by whichever way. The addresses of the stacks are arguments here;
that the heap returns them, and for which processes, is in `System.Storage`.
-/

namespace Pitos

open Lib

/-- The stacks that `alloca_stack` has handed out and `dealloca_stack` has not taken back, three
for each activation. -/
abbrev Pile := List (Fin 3 → Word)

/-- An activation allocates when it finds a slot. -/
def alloca (s : Kernel) (stk : Fin 3 → Word) (pile : Pile) : Pile :=
  if s.procCount = MAXPROCS then pile else stk :: pile

/-- How many processes end between two states. -/
def finiti (s t : Kernel) : Nat := (s.vivi \ t.vivi).card

/-- The stacks held and the number of processes that have terminated. No path of the kernel
calls `dealloca_stack`. -/
def allocazioni : Annotazione (Pile × Nat) where
  inizio stk := ([stk], 0)
  avvio s v _ h :=
    match v with
    | .attiva _ _ _ _ _ _ stk => (alloca s stk h.1, h.2)
    | .semIni .. => h
  evento s e t h :=
    match e with
    | .chiamata (.activateP _ _ _ _ _ stk) => (alloca s stk h.1, h.2 + finiti s t)
    | _ => (h.1, h.2 + finiti s t)

/-- The stacks held are those of the live processes. -/
def Rese (s : Kernel) (pile : Pile) : Prop :=
  (pile : Multiset (Fin 3 → Word)) = s.vivi.val.map fun p => (s.des (some p)).stk

structure Contate (s : Kernel) (h : Pile × Nat) : Prop where
  numero : h.1.length = s.vivi.card + h.2
  rese : h.2 = 0 → Rese s h.1

namespace Contate

variable {s t : Kernel} {h : Pile × Nat}

/-- The two numbers decide. -/
theorem rese_iff (hC : Contate s h) : Rese s h.1 ↔ h.2 = 0 := by
  refine ⟨fun hr => ?_, hC.rese⟩
  have hcard := congrArg Multiset.card hr
  rw [Multiset.coe_card, Multiset.card_map, Finset.card_val, hC.numero] at hcard
  omega

/-- Nobody is activated. -/
theorem resta (hC : Contate s h) (hv : t.vivi ⊆ s.vivi) (hst : Intatti s t) :
    Contate t (h.1, h.2 + finiti s t) := by
  have hcard := Finset.card_sdiff_add_card_eq_card hv
  have hnum := hC.numero
  refine ⟨?_, fun h0 => ?_⟩
  · show h.1.length = t.vivi.card + (h.2 + finiti s t)
    unfold finiti
    omega
  · have h0' : h.2 = 0 ∧ finiti s t = 0 := by
      have : h.2 + finiti s t = 0 := h0
      omega
    have hsub : s.vivi ⊆ t.vivi := by
      have := h0'.2
      unfold finiti at this
      rwa [Finset.card_eq_zero, Finset.sdiff_eq_empty_iff_subset] at this
    have hr := hC.rese h0'.1
    unfold Rese at hr ⊢
    rw [hr, hsub.antisymm hv]
    exact Multiset.map_congr rfl fun p _ => (hst (some p)).2.symm

/-- Nobody is activated and nobody ends. -/
theorem uguale (hC : Contate s h) (hv : t.vivi = s.vivi) (hst : Intatti s t) : Contate t h := by
  have hfin : finiti s t = 0 := by
    unfold finiti
    rw [hv, Finset.sdiff_self, Finset.card_empty]
  have ht := hC.resta hv.subset hst
  rwa [hfin] at ht

/-- One process is activated. -/
theorem attiva {q : Pid} {stk : Fin 3 → Word} (hC : Contate s h) (hq : q ∉ s.vivi)
    (hv : t.vivi = insert q s.vivi)
    (hst : ∀ p ∈ s.vivi, (t.des (some p)).stk = (s.des (some p)).stk)
    (hnew : (t.des (some q)).stk = stk) : Contate t (stk :: h.1, h.2) := by
  have hnum := hC.numero
  refine ⟨?_, fun h0 => ?_⟩
  · show (stk :: h.1).length = t.vivi.card + h.2
    rw [List.length_cons, hv, Finset.card_insert_of_notMem hq]
    omega
  · have hr := hC.rese h0
    unfold Rese at hr ⊢
    rw [hv, Finset.insert_val_of_notMem hq, Multiset.map_cons, hnew, ← Multiset.cons_coe, hr]
    congr 1
    exact Multiset.map_congr rfl fun p hp => (hst p hp).symm

end Contate

/-! ## The entries -/

section

variable {s t : Kernel} {a b : Astratto} {ts : List Atto} {p q : Pid} {e : Evento}

/-- Without an activation no process is added. -/
theorem vivi_subset (h : Run Mossa a ts b) (hI : Inv a) (ht : ∀ q k, .attiva q k ∉ ts) :
    b.vivi ⊆ a.vivi := by
  induction h with
  | nil => exact Finset.Subset.refl _
  | @cons a c b t ts hm _ ih =>
    have h1 : c.vivi ⊆ a.vivi := by
      rw [hm.vivi_eq hI]
      cases t with
      | attiva q k => exact absurd List.mem_cons_self (ht q k)
      | termina q => exact Finset.erase_subset _ _
      | _ => exact Finset.Subset.refl _
    exact (ih (hm.inv hI) fun q k h => ht q k (List.mem_cons_of_mem _ h)).trans h1

theorem Segnali.attiva (h : Segnali ts) (q : Pid) (k : Int) : .attiva q k ∉ ts := by
  rcases h with rfl | rfl | ⟨p, -, rfl⟩ <;> simp

/-- Activations are what the call is for and happen nowhere else. -/
theorem Traccia.attiva (h : Traccia s p e ts) (he : ¬ e.Attiva) (q : Pid) (k : Int) :
    .attiva q k ∉ ts := by
  cases e with
  | chiamata c =>
    obtain ⟨t, sig, ht, hsig, rfl⟩ := h
    intro hmem
    rcases List.mem_cons.mp hmem with rfl | hmem
    · cases c with
      | activateP f k' prec idx risu stk => exact he trivial
      | semIni valore idx risu =>
        simp only [Compie] at ht
        split at ht <;> cases ht
      | semWait hsem =>
        simp only [Compie] at ht
        split at ht
        · cases ht
        · rcases ht with ht | ht <;> cases ht
      | semSignal hsem =>
        simp only [Compie] at ht
        split at ht
        · cases ht
        · rcases ht with ht | ⟨r, ht | ht⟩ <;> cases ht
      | _ => cases ht
    · exact hsig.attiva q k hmem
  | chiamataErrata =>
    rw [show ts = [] from h]
    exact List.not_mem_nil
  | tick =>
    obtain ⟨sig, t, hsig, ht, rfl⟩ := h
    intro hmem
    simp only [List.mem_cons, List.mem_append, List.not_mem_nil, or_false, reduceCtorEq,
      false_or] at hmem
    rcases hmem with hmem | hmem
    · exact hsig.attiva q k hmem
    · subst hmem
      rcases ht with ht | ht | ht <;> cases ht
  | tasto code =>
    rw [show ts = _ from h]
    split
    · split <;> simp
    · exact List.not_mem_nil
  | eccezione =>
    rw [show ts = [.termina p] from h]
    simp
  | ritorno => exact absurd h id

/-- The process that a call leaves running is the only one its way out may end. -/
theorem Segnali.vivo (h : Segnali ts) (hr : Run Mossa a ts b) (hI : Inv a)
    (he : a.esecuzione = some p) (hq : q ∈ a.vivi) (hqp : q ≠ p) : q ∈ b.vivi := by
  rcases h with rfl | rfl | ⟨r, -, rfl⟩
  · cases hr
    exact hq
  · cases hr with
    | cons hm hnil =>
      cases hnil
      rw [hm.vivi_eq hI]
      exact hq
  · cases hr with
    | cons hm hr =>
      cases hr with
      | cons hm' hnil =>
        cases hnil
        have hqc := hq
        rw [← show Atto.vivi .dati a.vivi = a.vivi from rfl, ← hm.vivi_eq hI] at hqc
        rw [hm'.vivi_eq (hm.inv hI)]
        refine Finset.mem_erase.mpr ⟨fun e => ?_, hqc⟩
        subst e
        cases hm with
        | dati r d hr _ _ =>
          cases hm' with
          | termina _ he' _ => exact hqp (Option.some.inj (he'.symm.trans he))

/-- What an activation does to the record. -/
theorem Contate.attivata {h : Pile × Nat} {f k idx risu : Word} {prec level : Int}
    {stk : Fin 3 → Word} (hC : Contate s h) (hR : Rappr s a) (hI : Inv a)
    (heq : kiActivatePLevel f k prec level idx risu stk s = .ok t) :
    Contate t (alloca s stk h.1, h.2) ∧ s.vivi ⊆ t.vivi ∧ ∀ q ∈ t.vivi, q ∉ s.vivi →
      (s.des (some q)).stato = .FREE := by
  unfold alloca
  by_cases hlt : s.procCount = MAXPROCS
  · simp only [kiActivatePLevel, hlt, if_true] at heq ⊢
    obtain rfl := Except.ok.inj heq
    exact ⟨⟨hC.numero, hC.rese⟩, Finset.Subset.refl _, fun q hq hq' => absurd hq hq'⟩
  · rw [if_neg hlt]
    obtain ⟨t', q, heq', hat⟩ := hR.kiActivatePLevel_attivato hI f k prec level idx risu stk hlt
    obtain rfl := Except.ok.inj (heq'.symm.trans heq)
    obtain ⟨pre, -, haltri⟩ := hat.altri
    have hmem : ∀ (u : Kernel) r, r ∈ u.vivi ↔ u.Vivo r := fun u r => by simp [Kernel.vivi]
    have hdes : ∀ r, r ≠ q → (t'.des (some r)).slegato = (s.des (some r)).slegato := fun r hr =>
      (haltri (some r) fun e => hr (Option.some.inj e)).2
    have hv : t'.vivi = insert q s.vivi := by
      ext r
      rw [Finset.mem_insert, hmem, hmem]
      by_cases hr : r = q
      · subst hr
        exact ⟨fun _ => Or.inl rfl, fun _ => hat.vivo⟩
      · have hst := congrArg DesProc.stato (hdes r hr)
        change (t'.des (some r)).stato = (s.des (some r)).stato at hst
        unfold Kernel.Vivo
        rw [hst]
        exact ⟨Or.inr, fun h => h.resolve_left hr⟩
    have hq : q ∉ s.vivi := fun h => hat.libero ((hmem s q).mp h)
    refine ⟨hC.attiva hq hv (fun r hr => ?_) ?_, hv ▸ Finset.subset_insert q s.vivi, ?_⟩
    · have hst := congrArg DesProc.stk (hdes r fun e => hq (e ▸ hr))
      exact hst
    · have hst := congrArg DesProc.stk (kiActivatePLevel_nuovo hlt hat.trovato heq)
      exact hst
    · intro r _ hr
      by_contra hne
      exact hr ((hmem s r).mpr hne)

/-- What an entry does to the record. -/
theorem Contate.evento {h : Pile × Nat} (hC : Contate s h) (hR : Rappr s a) (hA : Regolare a)
    (he : a.esecuzione = some p) (hposs : Possibile s e) (heq : passo s e = .ok t)
    (hts : Traccia s p e ts) (hr : Run Mossa a ts b) (hRt : Rappr t b) :
    Contate t (allocazioni.evento s e t h) := by
  by_cases hat : e.Attiva
  · obtain ⟨f, k, prec, idx, risu, stk, rfl⟩ :
        ∃ f k prec idx risu stk, e = .chiamata (.activateP f k prec idx risu stk) := by
      cases e with
      | chiamata c =>
        cases c with
        | activateP f k prec idx risu stk => exact ⟨f, k, prec, idx, risu, stk, rfl⟩
        | _ => exact absurd hat id
      | _ => exact absurd hat id
    obtain ⟨⟨p', hesec, hp⟩, -, -⟩ := hposs
    obtain rfl := Option.some.inj (hesec.symm.trans (hR.esecuzione.trans he))
    obtain ⟨s₁, h₁, h₂⟩ := bind_ok heq
    obtain ⟨hC₁, hsub, hfree⟩ := hC.attivata hR hA.inv h₁
    obtain ⟨s₁', t₁, b₁, heq₁, ht₁, hm₁, hR₁⟩ := hR.esegui_mossa hA.inv he hp
      (.activateP f k prec idx risu stk) trivial id
    obtain rfl := Except.ok.inj (heq₁.symm.trans h₁)
    have hchiude : t₁ ≠ .chiude := ht₁.diChiamata.1
    have hA₁ := hA.mossa hm₁ hchiude (hA.muto he hp)
    obtain ⟨t', sig, b', heq', hsig, hrun, hRt', -⟩ :=
      hR₁.uscita_eq hA₁ (hm₁.muto hA.inv hchiude (hA.muto he hp))
    obtain rfl := Except.ok.inj (heq'.symm.trans h₂)
    have hesec₁ : b₁.esecuzione = some p' := by
      rcases ht₁ with rfl | ⟨q, rfl⟩
      · cases hm₁ with
        | dati _ _ _ _ _ => exact he
      · obtain ⟨d, -, -, -, -, -, -, rfl⟩ := hm₁.attiva_inv
        exact he
    have hpv : p' ∈ s.vivi := hR.vivi_eq ▸ hA.inv.esecuzione_vivi he
    have hnuovi : s₁'.vivi \ t'.vivi = s.vivi \ t'.vivi := by
      ext q
      simp only [Finset.mem_sdiff]
      constructor
      · rintro ⟨hq, hqt⟩
        refine ⟨?_, hqt⟩
        by_contra hqs
        have hqp : q ≠ p' := fun e => hqs (e ▸ hpv)
        apply hqt
        rw [hRt'.vivi_eq]
        exact hsig.vivo hrun hA₁.inv hesec₁ (hR₁.vivi_eq ▸ hq) hqp
      · rintro ⟨hq, hqt⟩
        exact ⟨hsub hq, hqt⟩
    have hfin : finiti s₁' t' = finiti s t' := congrArg Finset.card hnuovi
    show Contate t' (alloca s stk h.1, h.2 + finiti s t')
    rw [← hfin]
    refine hC₁.resta ?_ (uscita_intatti heq')
    rw [hRt'.vivi_eq, hR₁.vivi_eq]
    exact vivi_subset hrun hA₁.inv hsig.attiva
  · have hrec : allocazioni.evento s e t h = (h.1, h.2 + finiti s t) := by
      cases e with
      | chiamata c =>
        cases c with
        | activateP f k prec idx risu stk => exact absurd trivial hat
        | _ => rfl
      | _ => rfl
    rw [hrec]
    refine hC.resta ?_ (passo_intatti heq hat)
    rw [hRt.vivi_eq, hR.vivi_eq]
    exact vivi_subset hr hA.inv (hts.attiva hat)

end

/-- `kernel_init` allocates the stacks of `dummyproc`. -/
theorem contate_inizio {s₀ s : Kernel} {a : Astratto} {dummy risu : Word} {stk : Fin 3 → Word}
    (hcar : Caricato s₀) (h : kernelInit dummy risu stk s₀ = .ok s) (hR : Rappr s a)
    (hini : Iniziale a) : Contate s ([stk], 0) := by
  have hv : s.vivi = {idle} := hR.vivi_eq.trans hini.vivi
  let s₁ : Kernel := { s₀ with
    currentPage := 0
    des := fun p => if p = none then s₀.des none else { s₀.des p with stato := .FREE }
    dessem := fun i => { s₀.dessem i with busy := false }
    tssEsp0 := s₀.link.sysStack + 4095 }
  have h₁ : kiActivatePLevel s₁.link.dummyproc 0 3000 0 dummy risu stk s₁ = .ok s := h
  have hlt : s₁.procCount ≠ MAXPROCS := by
    rw [show s₁.procCount = 0 from hcar.procCount]
    decide
  have hq : s₁.cercaLibero = some idle := by
    unfold Kernel.cercaLibero
    rw [List.finRange_succ, List.find?_cons_of_pos]
    rfl
  have hstk := congrArg DesProc.stk (kiActivatePLevel_nuovo hlt hq h₁)
  change (s.des (some idle)).stk = stk at hstk
  refine ⟨by rw [hv]; rfl, fun _ => ?_⟩
  unfold Rese
  rw [hv, Finset.singleton_val, Multiset.map_singleton, hstk]
  rfl

theorem kernelGo_intatti {s t : Kernel} (h : kernelGo s = .ok t) : Intatti s t := by
  obtain ⟨s₁, rfl | rfl, h₁⟩ := kernelGo_ok h
  · exact (caricaStato_quieto h₁).intatti
  · exact ((schedulatore_quieto s).trans (caricaStato_quieto h₁)).intatti

/-- In a run in which the idle process lives, the stacks held are those of the live processes
exactly when no process has terminated. -/
theorem pile_rese (es : List Evento) (x : Kernel × Pile × Nat)
    (h : allocazioni.Raggiunge IdleVivo es x) : Rese x.1 x.2.1 ↔ x.2.2 = 0 := by
  have hJ : ∃ a, Rappr x.1 a ∧ Regolare a ∧ Contate x.1 x.2 := by
    refine h.segue (J := fun s _ h => Contate s h) (fun _ _ hv => hv)
      (fun _ _ _ _ _ _ hcar hinit hini hR => contate_inizio hcar hinit hR hini) ?_ ?_ ?_
    · intro s v t a ts b k hR hI heq hts hr hRt hC
      cases v with
      | attiva f h prec level idx risu stk => exact (hC.attivata hR hI heq).1
      | semIni valore idx risu =>
        obtain rfl := Except.ok.inj heq
        refine hC.uguale ?_ (kiSemIni_conservati valore idx risu s).intatti
        unfold kiSemIni
        split <;> rfl
    · intro s t a b k hR hI he heq hm hRt hC
      refine hC.uguale ?_ (kernelGo_intatti heq)
      rw [hRt.vivi_eq, hR.vivi_eq]
      exact hm.vivi_eq hI
    · intro s e t p ts a b k hR hA he hposs _ heq hts hr hRt hC
      exact hC.evento hR hA he hposs heq hts hr hRt
  obtain ⟨a, -, -, hC⟩ := hJ
  exact hC.rese_iff

/-- `main` starts a process, which starts another. -/
theorem pile_rese_corsa :
    ∃ x, allocazioni.Raggiunge IdleVivo [.chiamata (.activateP 0x7100 0 12 0x5018 0x501c
      (pila 0x24000)), .tick] x ∧ Rese x.1 x.2.1 := by
  obtain ⟨x, hx, hP⟩ := Annotazione.prova_raggiunge (A := allocazioni) (G := IdleVivo)
    [.attiva 0x7000 0 10 3 0x5010 0x5014 (pila 0x20000)]
    [.chiamata (.activateP 0x7100 0 12 0x5018 0x501c (pila 0x24000)), .tick]
    (fun x => x.2.2 = 0) (by decide +kernel)
  exact ⟨x, hx, (pile_rese _ x hx).mpr (of_decide_eq_true hP)⟩

/-- A process terminates, and its three stacks stay allocated. -/
theorem pile_perdute :
    ∃ x, allocazioni.Raggiunge IdleVivo [.chiamata .terminateP] x ∧
      x.1.vivi.card = 1 ∧ x.2.1.length = 2 ∧ ¬ Rese x.1 x.2.1 := by
  obtain ⟨x, hx, hP⟩ := Annotazione.prova_raggiunge (A := allocazioni) (G := IdleVivo)
    [.attiva 0x7000 0 10 3 0x5010 0x5014 (pila 0x20000)] [.chiamata .terminateP]
    (fun x => x.1.vivi.card = 1 ∧ x.2.1.length = 2) (by decide +kernel)
  obtain ⟨hcard, hlen⟩ := of_decide_eq_true hP
  refine ⟨x, hx, hcard, hlen, fun hr => ?_⟩
  have hnum := congrArg Multiset.card hr
  rw [Multiset.coe_card, Multiset.card_map, Finset.card_val] at hnum
  omega

end Pitos
