import Mathlib.Tactic.FinCases
import Pitos.Refinement.Execution
import Pitos.Refinement.Footprint

/-!
# Activation of a process

`attivazione`: `procCount` counts the live processes in every state that is reached, so
`ki_activate_p` refuses when the table is full and only then, and otherwise its search finds a
free descriptor. Apart from that descriptor it writes one link, that of the process in front of
the new one in `pronti`.

`inizio_uguale`: what a free descriptor holds comes through to its next owner in the slots of
`context` that `ki_activate_p_level` does not assign, those of `EBX`, `ECX`, `EDX`, `ESI`, `EDI`
and `EBP`, and nowhere else.
-/

namespace Pitos

open Lib

/-! ## The descriptors that an activation changes -/

/-- The insertion in a queue writes the element and the link of its predecessor. -/
theorem inserimentoCoda_prec {des des' : DesMem} {coda coda' : DesPtr} {l : List Pid} {p : Pid}
    (h : Linked (successore des) coda l)
    (heq : inserimentoCoda des coda (some p) = some (des', coda')) :
    ∃ prec : DesPtr, (∀ q, prec = some q → q ∈ l ∧ (des' (some q)).next = some p) ∧
      ∀ r, r ≠ some p → (∀ q, prec = some q → r ≠ some q) → des' r = des r := by
  have hwalk := walk_eq (passes (fun r : Pid => (des (some r)).prec) (des (some p)).prec) h
    (length_of_linked h) () none
  have happ := cut_append (passes (fun r : Pid => (des (some r)).prec) (des (some p)).prec) () l
  generalize cut (passes (fun r : Pid => (des (some r)).prec) (des (some p)).prec) () l = c
    at hwalk happ
  obtain ⟨a, u, b⟩ := c
  simp only [Option.or_none] at hwalk happ
  have hwalk' : walk (passes (fun r : Pid => (des (some r)).prec) (des (some p)).prec)
      (fun r => (des (some r)).next) (MAXPROCS + 1) () none coda =
      some (u, a.getLast?, b.head?) := hwalk
  simp only [inserimentoCoda, reduceCtorEq, if_false, hwalk'] at heq
  cases ha : a.getLast? with
  | none =>
    simp only [ha] at heq
    obtain ⟨rfl, -⟩ := Prod.mk.inj (Option.some.inj heq)
    refine ⟨none, ?_, fun r hr _ => Function.update_of_ne hr _ _⟩
    intro q hq
    cases hq
  | some q =>
    simp only [ha] at heq
    obtain ⟨rfl, -⟩ := Prod.mk.inj (Option.some.inj heq)
    refine ⟨some q, ?_, ?_⟩
    · intro r hr
      obtain rfl := Option.some.inj hr
      refine ⟨happ ▸ List.mem_append_left _ (List.mem_of_getLast? ha), ?_⟩
      simp [setNext]
    · intro r hr hpre
      rw [setNext, Function.update_of_ne (hpre q rfl), setNext, Function.update_of_ne hr]

/-- What `ki_activate_p` leaves when there is a free descriptor: `q` is the slot it took. -/
structure Attivato (s s' : Kernel) (idx risu : Word) (stk : Fin 3 → Word) (q : Pid) : Prop where
  libero : ¬ s.Vivo q
  trovato : s.cercaLibero = some q
  vivo : s'.Vivo q
  pronto : s'.InPronti q
  esito : s'.mem risu = 1
  /-- The variable `idx` of the caller is not the variable `risu`, nor on the new stacks. -/
  indice : (∀ b, Mem.Within idx 4 b → b ≠ risu ∧ ¬ PileNuove stk b) →
    s'.mem.read32 idx = BitVec.ofNat 32 q
  altri : ∃ prec : DesPtr, (∀ x, prec = some x → s.InPronti x ∧ (s'.des (some x)).next = some q) ∧
    ∀ r, r ≠ some q → ((∀ x, prec = some x → r ≠ some x) → s'.des r = s.des r) ∧
      (s'.des r).slegato = (s.des r).slegato

namespace Rappr

variable {s : Kernel} {a : Astratto}

/-- `ki_activate_p_level`, whoever calls it. -/
theorem kiActivatePLevel_attivato (hR : Rappr s a) (hI : Inv a) (f h : Word) (prec level : Int)
    (idx risu : Word) (stk : Fin 3 → Word) (hlt : s.procCount ≠ MAXPROCS) :
    ∃ s' q, kiActivatePLevel f h prec level idx risu stk s = .ok s' ∧
      Attivato s s' idx risu stk q := by
  obtain ⟨q, hq, hqf⟩ := hR.cercaLibero_eq hI.conta hlt
  have hq0 := hI.inCoda_of_free hqf
  let s₁ := s.assegna idx q
  have hR₁ : Rappr s₁ (a.setProcCount (int32 (s.procCount + 1))) :=
    (hR.setProcCount (int32 (s.procCount + 1))).setMem (s.mem.write32 idx (BitVec.ofNat 32 q))
  have hR₂ := hR₁.prepara hq0 f h prec (clamp level 0 3) stk
  have hdes : (s₁.prepara (some q) f h prec (clamp level 0 3) stk).des =
      Function.update s.des (some q) (nuovoDes (s.des (some q)) prec stk) := by
    simp only [Kernel.prepara, Kernel.aggiorna, Function.update_self, Function.update_idem, nuovoDes]
    rfl
  obtain ⟨des', coda', heq, hlink, hdati, -⟩ := inserimentoCoda_eq hR₂.pronti
    (not_mem_pronti (a := (a.setProcCount (int32 (s.procCount + 1))).aggiorna q _) hq0)
  obtain ⟨pre, hpre, hframe⟩ := inserimentoCoda_prec hR₂.pronti heq
  rw [hdes] at hdati hframe
  refine ⟨{ s₁.prepara (some q) f h prec (clamp level 0 3) stk with
    des := des', pronti := coda', mem := (s₁.pilaIniziale f h (clamp level 0 3) stk).write8 risu 1 },
    q, ?_, ?_, hq, ?_, ?_, ?_, fun hidx => ?_, pre, fun x hx => ?_, fun r hr => ⟨?_, ?_⟩⟩
  · rw [kiActivatePLevel_libero hlt hq, Kernel.inserisciPronti, heq]
    rfl
  · rw [Kernel.Vivo, hR.stato, hqf]
    exact fun h => h rfl
  · have hstato := congrArg DesProc.stato (hdati (some q))
    rw [Function.update_self] at hstato
    intro hfree
    cases (hstato.symm.trans hfree : StatoProcesso.PRONTO = .FREE)
  · exact ⟨_, hlink, (insertByKey_perm _ _ _).mem_iff.mpr List.mem_cons_self⟩
  · exact if_pos rfl
  · have hch : Mem.ChangesAt (fun b => b = risu ∨ PileNuove stk b) s₁.mem
        ((s₁.pilaIniziale f h (clamp level 0 3) stk).write8 risu 1) :=
      ((pilaIniziale_changes s₁ f h _ stk).mono fun b hb => Or.inr hb).write8 (Or.inl rfl)
    refine (hch.read32 fun b hb hb' => ?_).trans (Mem.read32_write32 s.mem idx _)
    rcases hb' with hb' | hb'
    · exact (hidx b hb).1 hb'
    · exact (hidx b hb).2 hb'
  · obtain ⟨hmemb, hnext⟩ := hpre x hx
    exact ⟨hR.inPronti_iff.mpr hmemb, hnext⟩
  · intro hpre'
    exact (hframe r hr hpre').trans (Function.update_of_ne hr _ _)
  · rw [hdati, Function.update_of_ne hr]

end Rappr

/-- The live processes. -/
def Kernel.vivi (s : Kernel) : Finset Pid := Finset.univ.filter fun p => s.Vivo p

theorem Rappr.vivi_eq {s : Kernel} {a : Astratto} (hR : Rappr s a) : s.vivi = a.vivi := by
  ext p
  rw [Kernel.vivi, Finset.mem_filter, hR.vivo_iff]
  exact ⟨fun h => h.2, fun h => ⟨Finset.mem_univ p, h⟩⟩

/-- What the system reaches while the idle process lives represents an abstract state. -/
theorem Raggiunge.regolare {s : Kernel} {es : List Evento} (h : Raggiunge IdleVivo es s) :
    ∃ a, Rappr s a ∧ Regolare a := by
  obtain ⟨a, hR, hA, -⟩ := h.segue (J := fun _ => True) (fun _ _ hv => hv) (fun _ _ => trivial)
    (fun _ _ _ _ _ _ _ => trivial) fun _ _ _ _ _ _ _ _ _ _ _ _ _ _ => trivial
  exact ⟨a, hR, hA⟩

theorem attivazione (es : List Evento) (s : Kernel) (h : Raggiunge IdleVivo es s) :
    s.procCount = s.vivi.card ∧
      ∀ (f k : Word) (prec : Int) (idx risu : Word) (stk : Fin 3 → Word),
        (s.vivi.card = MAXPROCS ∧
          kiActivateP f k prec idx risu stk s = .ok { s with mem := s.mem.write8 risu 0 }) ∨
        (s.vivi.card ≠ MAXPROCS ∧ ∃ s' q, kiActivateP f k prec idx risu stk s = .ok s' ∧
          Attivato s s' idx risu stk q) := by
  obtain ⟨a, hR, hA⟩ := h.regolare
  have hconta : s.procCount = s.vivi.card := by
    rw [hR.procCount, hR.vivi_eq]
    exact hA.inv.conta
  refine ⟨hconta, ?_⟩
  intro f k prec idx risu stk
  by_cases hcard : s.vivi.card = MAXPROCS
  · refine Or.inl ⟨hcard, ?_⟩
    have hpieno : s.procCount = MAXPROCS := by rw [hconta, hcard]
    simp only [kiActivateP, kiActivatePLevel, hpieno, if_true]
    rfl
  · refine Or.inr ⟨hcard, hR.kiActivatePLevel_attivato hA.inv f k prec 3 idx risu stk fun e => ?_⟩
    rw [hconta] at e
    exact hcard (by exact_mod_cast e)

/-- A process activates another. -/
theorem attivazione_corsa :
    ∃ s, Raggiunge IdleVivo [.tick] s ∧ s.procCount = s.vivi.card := by
  obtain ⟨x, hx, -⟩ := Sistema.prova_raggiunge (B := fun _ => True)
    (G := fun x e => IdleVivo x.kernel e)
    [.attiva 0x7000 0 10 3 0x5010 0x5014 (pila 0x20000)] [.tick] (fun _ => true)
    (by decide +kernel)
  have hs := hx.kernel (H := IdleVivo) fun _ _ h => h
  exact ⟨x.kernel, hs, (attivazione _ _ hs).1⟩

/-! ## What a free descriptor holds -/

/-- The states differ only in the contents of free descriptors. -/
structure StessiVivi (s t : Kernel) : Prop where
  vivo : ∀ p, t.Vivo p ↔ s.Vivo p
  des : ∀ r, (∀ p, r = some p → s.Vivo p) → t.des r = s.des r
  resto : { t with des := s.des } = s

/-- Two processes that start alike. -/
structure StessoInizio (d e : DesProc) : Prop where
  context : ∀ i, e.context i = d.context i
  prec : e.prec = d.prec
  baseprec : e.baseprec = d.baseprec
  tick : e.tick = d.tick
  tickTotal : e.tickTotal = d.tickTotal
  sigMask : e.sigMask = d.sigMask
  sigHandlers : ∀ i, e.sigHandlers i = d.sigHandlers i

/-- The slots that `ki_activate_p_level` does not assign: `EBX`, `ECX`, `EDX`, `ESI`, `EDI`,
`EBP`. -/
def Tramandato (i : Fin NUMREG) : Prop := 1 ≤ i.val ∧ i.val ≤ 6

instance (i : Fin NUMREG) : Decidable (Tramandato i) := inferInstanceAs (Decidable (_ ∧ _))

theorem registriIniziali_iff (esp : Word) (c c' : Fin NUMREG → Word) :
    (∀ i, registriIniziali esp c' i = registriIniziali esp c i) ↔
      ∀ i, Tramandato i → c' i = c i := by
  constructor
  · intro h i hi
    have := h i
    fin_cases i <;> first | exact this | exact absurd hi (by decide)
  · intro h i
    have := h i
    fin_cases i <;> first | rfl | exact this (by decide)

/-- A live process is not the one that the search finds. -/
theorem Kernel.Vivo.occupato {s : Kernel} {p : Pid} (h : s.Vivo p) : some p ≠ s.cercaLibero := by
  intro hp
  have hfree := List.find?_some hp.symm
  exact h (of_decide_eq_true hfree)

/-- The new descriptor, whatever the rest of the state is. -/
theorem kiActivatePLevel_nuovo {s s' : Kernel} {f k : Word} {prec level : Int} {idx risu : Word}
    {stk : Fin 3 → Word} {q : Pid} (hlt : s.procCount ≠ MAXPROCS) (hq : s.cercaLibero = some q)
    (h : kiActivatePLevel f k prec level idx risu stk s = .ok s') :
    (s'.des (some q)).slegato = Rappr.nuovoDes (s.des (some q)) prec stk := by
  rw [kiActivatePLevel_libero hlt hq] at h
  obtain ⟨s₁, h₁, h₂⟩ := bind_ok h
  obtain rfl := Except.ok.inj h₂
  apply (inserisciPronti_slegato h₁ (some q)).trans
  simp only [Kernel.prepara, Kernel.aggiorna, Function.update_self, Function.update_idem]
  rfl

theorem stessoInizio_iff {d e : DesProc} {prec : Int} {stk : Fin 3 → Word} {x y : DesProc}
    (hx : x.slegato = Rappr.nuovoDes d prec stk) (hy : y.slegato = Rappr.nuovoDes e prec stk) :
    StessoInizio x y ↔ ∀ i, Tramandato i → e.context i = d.context i := by
  rw [← registriIniziali_iff (stk 0 - 20)]
  have hcx : x.context = registriIniziali (stk 0 - 20) d.context := congrArg DesProc.context hx
  have hcy : y.context = registriIniziali (stk 0 - 20) e.context := congrArg DesProc.context hy
  constructor
  · intro h i
    rw [← hcx, ← hcy]
    exact h.context i
  · intro h
    refine ⟨?_, ?_, ?_, ?_, ?_, ?_, ?_⟩
    · intro i
      rw [hcx, hcy]
      exact h i
    · exact (congrArg DesProc.prec hy).trans (congrArg DesProc.prec hx).symm
    · exact (congrArg DesProc.baseprec hy).trans (congrArg DesProc.baseprec hx).symm
    · exact (congrArg DesProc.tick hy).trans (congrArg DesProc.tick hx).symm
    · exact (congrArg DesProc.tickTotal hy).trans (congrArg DesProc.tickTotal hx).symm
    · exact (congrArg DesProc.sigMask hy).trans (congrArg DesProc.sigMask hx).symm
    · intro i
      exact congrFun ((congrArg DesProc.sigHandlers hy).trans (congrArg DesProc.sigHandlers hx).symm) i

/-- An activation returns when the ready processes are a list of live processes. -/
theorem kiActivatePLevel_ritorna {s : Kernel} {l : List Pid} {q : Pid}
    (hl : Linked (successore s.des) s.pronti l) (hv : ∀ p ∈ l, s.Vivo p)
    (hq : s.cercaLibero = some q) (f k : Word) (prec level : Int) (idx risu : Word)
    (stk : Fin 3 → Word) : ∃ s', kiActivatePLevel f k prec level idx risu stk s = .ok s' := by
  by_cases hlt : s.procCount = MAXPROCS
  · simp only [kiActivatePLevel, hlt, if_true]
    exact ⟨_, rfl⟩
  have hfree : ¬ s.Vivo q := by
    have := List.find?_some hq
    exact fun h => h (by simpa using this)
  have hql : q ∉ l := fun h => hfree (hv q h)
  have hlink : Linked (successore
      ((s.assegna idx q).prepara (some q) f k prec (clamp level 0 3) stk).des)
      ((s.assegna idx q).prepara (some q) f k prec (clamp level 0 3) stk).pronti l := by
    apply hl.congr
    intro p hp
    have hne : p ≠ q := fun e => hql (e ▸ hp)
    simp [Kernel.assegna, Kernel.prepara, Kernel.aggiorna, successore, hne]
  obtain ⟨des', coda', heq, -⟩ := inserimentoCoda_eq hlink hql
  rw [kiActivatePLevel_libero hlt hq, Kernel.inserisciPronti, heq]
  exact ⟨_, rfl⟩

namespace StessiVivi

variable {s t : Kernel} {l : List Pid}

theorem cercaLibero (h : StessiVivi s t) : t.cercaLibero = s.cercaLibero := by
  unfold Kernel.cercaLibero
  congr 1
  funext p
  have := h.vivo p
  unfold Kernel.Vivo at this
  simp only [decide_eq_decide]
  exact not_iff_not.mp this

theorem procCount (h : StessiVivi s t) : t.procCount = s.procCount := by
  have hcount := congrArg Kernel.procCount h.resto
  exact hcount

/-- The ready processes are the same list. -/
theorem pronti (h : StessiVivi s t) (hl : Linked (successore s.des) s.pronti l)
    (hv : ∀ p ∈ l, s.Vivo p) :
    Linked (successore t.des) t.pronti l ∧ ∀ p ∈ l, t.Vivo p := by
  have hpronti := congrArg Kernel.pronti h.resto
  change t.pronti = s.pronti at hpronti
  refine ⟨hpronti ▸ hl.congr fun p hp => ?_, fun p hp => (h.vivo p).mpr (hv p hp)⟩
  have hd := h.des (some p) fun q hq => Option.some.inj hq ▸ hv p hp
  exact congrArg DesProc.next hd

end StessiVivi

/-- The first part says that the two calls return; `l` are the ready processes. -/
theorem inizio_uguale (s t : Kernel) (h : StessiVivi s t) (q : Pid)
    (hq : s.cercaLibero = some q) (hlt : s.procCount ≠ MAXPROCS) (f k : Word) (prec level : Int)
    (idx risu : Word) (stk : Fin 3 → Word) :
    (∀ l, Linked (successore s.des) s.pronti l → (∀ p ∈ l, s.Vivo p) →
      (∃ s', kiActivatePLevel f k prec level idx risu stk s = .ok s') ∧
        ∃ t', kiActivatePLevel f k prec level idx risu stk t = .ok t') ∧
    ∀ s' t', kiActivatePLevel f k prec level idx risu stk s = .ok s' →
      kiActivatePLevel f k prec level idx risu stk t = .ok t' →
      (StessoInizio (s'.des (some q)) (t'.des (some q)) ↔
        ∀ i, Tramandato i → (t.des (some q)).context i = (s.des (some q)).context i) := by
  have hqt : t.cercaLibero = some q := h.cercaLibero.trans hq
  have hltt : t.procCount ≠ MAXPROCS := h.procCount ▸ hlt
  refine ⟨fun l hl hv => ⟨kiActivatePLevel_ritorna hl hv hq _ _ _ _ _ _ _, ?_⟩, ?_⟩
  · obtain ⟨hl', hv'⟩ := h.pronti hl hv
    exact kiActivatePLevel_ritorna hl' hv' hqt _ _ _ _ _ _ _
  · intro s' t' hs ht
    exact stessoInizio_iff (kiActivatePLevel_nuovo hlt hq hs) (kiActivatePLevel_nuovo hltt hqt ht)

/-- The state with another word in a slot of `p`. -/
def Kernel.conRegistro (s : Kernel) (p : Pid) (i : Fin NUMREG) (v : Word) : Kernel :=
  s.aggiorna (some p) fun d => { d with context := Function.update d.context i v }

theorem conRegistro_stessiVivi {s : Kernel} {p : Pid} (hp : ¬ s.Vivo p) (i : Fin NUMREG)
    (v : Word) : StessiVivi s (s.conRegistro p i v) := by
  refine ⟨?_, ?_, rfl⟩
  · intro q
    unfold Kernel.Vivo Kernel.conRegistro Kernel.aggiorna
    by_cases hq : q = p
    · subst hq
      simp
    · simp [hq]
  · intro r hr
    refine Function.update_of_ne (fun e => hp (hr p e)) _ _

/-- The slot of `EAX` is one of those that are assigned. -/
theorem inizio_uguale_corsa :
    ∃ s' t', kiActivatePLevel 0x7000 0 10 3 0x5020 0x5024 (pila 0x24000)
        (caricato.aggiorna (some 1) DesProc.libero) = .ok s' ∧
      kiActivatePLevel 0x7000 0 10 3 0x5020 0x5024 (pila 0x24000)
        ((caricato.aggiorna (some 1) DesProc.libero).conRegistro 1 0 7) = .ok t' ∧
      StessoInizio (s'.des (some 1)) (t'.des (some 1)) := by
  have hv : ¬ (caricato.aggiorna (some 1) DesProc.libero).Vivo 1 := by decide +kernel
  obtain ⟨hret, hiff⟩ := inizio_uguale _ _ (conRegistro_stessiVivi hv 0 7) 1 (by decide +kernel)
    (by decide) 0x7000 0 10 3 0x5020 0x5024 (pila 0x24000)
  obtain ⟨⟨s', hs⟩, t', ht⟩ := hret [] Linked.nil fun p hp => absurd hp List.not_mem_nil
  refine ⟨s', t', hs, ht, (hiff s' t' hs ht).mpr fun i hi => ?_⟩
  have hi0 : i ≠ 0 := fun e => by
    subst e
    exact absurd hi (by decide)
  simp [Kernel.conRegistro, Kernel.aggiorna, hi0]

/-- After the end of the process of slot 1 the slot is given to a new process: what the old one
had in `EBX` is there when the new one starts. -/
theorem registro_tramandato :
    ∃ s t q s' t', Raggiunge IdleVivo [.chiamata .terminateP] s ∧ StessiVivi s t ∧
      s.cercaLibero = some q ∧ s.procCount ≠ MAXPROCS ∧
      kiActivatePLevel 0x7000 0 10 3 0x5020 0x5024 (pila 0x24000) s = .ok s' ∧
      kiActivatePLevel 0x7000 0 10 3 0x5020 0x5024 (pila 0x24000) t = .ok t' ∧
      ¬ StessoInizio (s'.des (some q)) (t'.des (some q)) := by
  obtain ⟨x, hx, hP⟩ := Sistema.prova_raggiunge (B := fun _ => True)
    (G := fun x e => IdleVivo x.kernel e)
    [.attiva 0x7000 0 10 3 0x5010 0x5014 (pila 0x20000)] [.chiamata .terminateP]
    (fun x => decide (x.kernel.cercaLibero = some 1 ∧ ¬ x.kernel.Vivo 1 ∧ x.kernel.procCount = 1) &&
      match kiActivatePLevel 0x7000 0 10 3 0x5020 0x5024 (pila 0x24000) x.kernel,
        kiActivatePLevel 0x7000 0 10 3 0x5020 0x5024 (pila 0x24000) (x.kernel.conRegistro 1 1 7) with
      | .ok s', .ok t' => (t'.des (some 1)).context 1 ≠ (s'.des (some 1)).context 1
      | _, _ => false)
    (by decide +kernel)
  rw [Bool.and_eq_true, decide_eq_true_eq] at hP
  obtain ⟨⟨hq, hv, hcount⟩, hP⟩ := hP
  split at hP
  · rename_i s' t' hs ht
    refine ⟨x.kernel, x.kernel.conRegistro 1 1 7, 1, s', t', hx.kernel fun _ _ h => h,
      conRegistro_stessiVivi hv 1 7, hq, ?_, hs, ht, fun h => of_decide_eq_true hP (h.context 1)⟩
    rw [hcount]
    decide
  · cases hP

end Pitos
