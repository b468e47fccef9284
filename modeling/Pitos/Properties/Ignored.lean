import Pitos.Properties.Activation

/-!
# Ignored signals

`handlesignals` puts `SIG_DFL` in the table of the handlers before it looks at the handler that
was there. The first occurrence of a signal that the process ignores is ignored, and the second
one finds `SIG_DFL`: for `SIGQUIT` this is the end of the process (`ignorato_ucciso`). A run of
a process that ignores a signal is as it should be if and only if the signal is never handled,
and it is never handled if it is not pending at the start and never raised
(`segnale_ignorato`). The runs start in any state, and idle may be killed in them: a new process
takes a free descriptor, so a live one keeps its table.
-/

namespace Pitos

open Lib

/-- The state in which an entry looks for a pending signal. -/
def primaDeiSegnali (s : Kernel) : Evento → Option Kernel
  | .chiamata c => (esegui c s).toOption
  | .tick => (scadenze s).toOption.map fun s => s.aggiorna s.esecuzione DesProc.contato
  | _ => none

/-- In `s` the process `p` runs, and `i` is the signal that `handlesignals` takes. -/
def Primo (p : Pid) (i : Fin SIGCOUNT) (s : Kernel) : Prop :=
  s.esecuzione = some p ∧ getlsb (s.des (some p)).sigMask = some i.val

/-- The entry handles the signal `i` for `p`. -/
def Gestisce (p : Pid) (i : Fin SIGCOUNT) (s : Kernel) (e : Evento) : Prop :=
  ∃ u, primaDeiSegnali s e = some u ∧ Primo p i u

/-- A signal has been ignored: the process goes on, no frame has been made for a handler, and
the signal is still ignored. -/
structure Ignora (p : Pid) (i : Fin SIGCOUNT) (u v : Kernel) : Prop where
  vivo : v.Vivo p
  esecuzione : v.esecuzione = some p
  memoria : v.mem = u.mem
  gestore : (v.des (some p)).sigHandlers i = SIG_IGN

/-- If the entry handles the signal `i` for `p`, it ignores it. -/
def Rispetta (p : Pid) (i : Fin SIGCOUNT) (s : Kernel) (e : Evento) : Prop :=
  ∀ u, primaDeiSegnali s e = some u → Primo p i u → ∃ v, handlesignals u = .ok v ∧ Ignora p i u v

/-- An occurrence of `i` for `p`, raised by itself or by the keyboard. -/
def Solleva (p : Pid) (i : Fin SIGCOUNT) (s : Kernel) (e : Evento) : Prop :=
  s.esecuzione = some p ∧
    ((∃ sig, e = .chiamata (.raise sig) ∧ segnale sig = some i) ∨
      e = .tasto 0x86 ∧ i.val = SIGQUIT)

/-- A step of a run while `p` is alive and calls `ki_signal` for `i` with `SIG_IGN` only. -/
structure Vita (p : Pid) (i : Fin SIGCOUNT) (s : Kernel) (e : Evento) (t : Kernel) : Prop where
  passo : passo s e = .ok t
  vivo : s.Vivo p
  ignora : ∀ sig func, e = .chiamata (.signal sig func) → s.esecuzione = some p →
    segnale sig = some i → func = SIG_IGN

variable {s t u v : Kernel} {p : Pid} {i : Fin SIGCOUNT} {e : Evento}

/-! ## What becomes of the mask and the handlers -/

/-- The handler of `i` is the same, and `i` is not pending if it was not. -/
structure Tace (p : Pid) (i : Fin SIGCOUNT) (s t : Kernel) : Prop where
  gestore : (t.des (some p)).sigHandlers i = (s.des (some p)).sigHandlers i
  bit : (t.des (some p)).sigMask.getLsbD i = true → (s.des (some p)).sigMask.getLsbD i = true

namespace Tace

theorem refl (s : Kernel) : Tace p i s s := ⟨rfl, id⟩

theorem trans (h : Tace p i s t) (h' : Tace p i t u) : Tace p i s u :=
  ⟨h'.gestore.trans h.gestore, fun hb => h.bit (h'.bit hb)⟩

end Tace

theorem Conservati.tace (h : Conservati s t) : Tace p i s t := by
  have hr := h (some p)
  exact ⟨by rw [hr.sigHandlers], fun hb => hr.sigMask ▸ hb⟩

/-- An assignment to the table and the mask of the current process. -/
theorem Tace.aggiorna {q : DesPtr} {f : DesProc → DesProc}
    (hf : q = some p → (f (s.des (some p))).sigHandlers i = (s.des (some p)).sigHandlers i ∧
      ((f (s.des (some p))).sigMask.getLsbD i = true →
        (s.des (some p)).sigMask.getLsbD i = true)) : Tace p i s (s.aggiorna q f) := by
  by_cases hq : q = some p
  · subst hq
    obtain ⟨h1, h2⟩ := hf rfl
    refine ⟨?_, ?_⟩
    · rw [Kernel.des_aggiorna, Function.update_self]
      exact h1
    · rw [Kernel.des_aggiorna, Function.update_self]
      exact h2
  · have hd : (s.aggiorna q f).des (some p) = s.des (some p) := by
      rw [Kernel.des_aggiorna, Function.update_of_ne (Ne.symm hq)]
    exact ⟨by rw [hd], fun hb => hd ▸ hb⟩

/-- A signal other than `i`, or of another process. -/
theorem handlesignals_tace (h : handlesignals s = .ok t) (hno : ¬ Primo p i s) : Tace p i s t := by
  obtain ⟨j, hj, hc⟩ := handlesignals_parti h
  refine Tace.trans (Tace.aggiorna fun he => ?_) hc.tace
  have hij : i ≠ j := by
    rintro rfl
    rw [he] at hj
    exact hno ⟨he, hj⟩
  refine ⟨Function.update_of_ne hij _ _, fun hb => ?_⟩
  simp only [DesProc.preso, BitVec.getLsbD_and, Bool.and_eq_true] at hb
  exact hb.1

/-- The signal `i` of `p`. -/
theorem handlesignals_primo (h : handlesignals s = .ok t) (hp : Primo p i s) :
    (t.des (some p)).sigHandlers i = SIG_DFL := by
  obtain ⟨j, hj, hc⟩ := handlesignals_parti h
  rw [(hc (some p)).sigHandlers, hp.1, Kernel.des_aggiorna, Function.update_self]
  rw [hp.1, hp.2] at hj
  have hij : i = j := Fin.ext (Option.some.inj hj)
  rw [hij]
  exact Function.update_self _ _ _

theorem pendenti_tace
    (h : (if (s.des s.esecuzione).sigMask ≠ 0 then handlesignals s else .ok s) = .ok t)
    (hno : ¬ Primo p i s) : Tace p i s t := by
  split at h
  · exact handlesignals_tace h hno
  · obtain rfl := Except.ok.inj h
    exact .refl s

/-- The way out of a call. -/
theorem uscita_tace (h : (signalsCheck s >>= fun s => caricaStato s) = .ok t)
    (hno : ¬ Primo p i s) : Tace p i s t := by
  obtain ⟨s₁, h₁, h₂⟩ := bind_ok h
  exact (pendenti_tace (signalsCheck_ok h₁).2 hno).trans
    (caricaStato_quieto h₂).conservati.tace

theorem kiRaise_tace (sig : Int) (hno : s.esecuzione = some p → segnale sig ≠ some i) :
    Tace p i s (kiRaise sig s).2 := by
  unfold kiRaise
  split
  · exact .refl s
  · rename_i j hj
    refine Tace.aggiorna (f := fun d => { d with sigMask := d.sigMask ||| (1 : Word) <<< j.val })
      fun he => ⟨rfl, fun hb => ?_⟩
    have hij : i.val ≠ j.val := fun h => hno he (hj.trans (congrArg some (Fin.ext h.symm)))
    have hb' : (s.des (some p)).sigMask.getLsbD i = true ∨
        ((1 : Word) <<< j.val).getLsbD i = true := by
      simpa only [BitVec.getLsbD_or, Bool.or_eq_true] using hb
    apply hb'.resolve_right
    intro h1
    simp only [BitVec.getLsbD_shiftLeft, BitVec.ofNat_eq_ofNat, BitVec.getLsbD_one, Bool.and_eq_true,
      decide_eq_true_eq, Bool.not_eq_true', decide_eq_false_iff_not] at h1
    omega

/-- What a call does to the handler and the bit of `i`: only the two calls that are about them
change them. -/
structure Chiamato (p : Pid) (i : Fin SIGCOUNT) (c : Chiamata) (s t : Kernel) : Prop where
  gestore : (∃ sig func, c = .signal sig func ∧ s.esecuzione = some p ∧ segnale sig = some i ∧
      (t.des (some p)).sigHandlers i = func) ∨
    (t.des (some p)).sigHandlers i = (s.des (some p)).sigHandlers i
  bit : (∃ sig, c = .raise sig ∧ s.esecuzione = some p ∧ segnale sig = some i) ∨
    ((t.des (some p)).sigMask.getLsbD i = true → (s.des (some p)).sigMask.getLsbD i = true)

theorem Tace.chiamato {c : Chiamata} (h : Tace p i s t) : Chiamato p i c s t :=
  ⟨Or.inr h.gestore, Or.inr h.bit⟩

theorem kiSignal_chiamato (sig : Int) (func : Word) (s : Kernel) :
    Chiamato p i (.signal sig func) s (kiSignal sig func s).2 := by
  unfold kiSignal
  split
  · exact (Tace.refl s).chiamato
  · rename_i j hj
    let f : DesProc → DesProc := fun d =>
      { d with sigHandlers := Function.update d.sigHandlers j func }
    by_cases he : s.esecuzione = some p ∧ i = j
    · obtain ⟨he, rfl⟩ := he
      have hd : (s.aggiorna s.esecuzione f).des (some p) = f (s.des (some p)) := by
        rw [he, Kernel.des_aggiorna, Function.update_self]
      refine ⟨Or.inl ⟨sig, func, rfl, he, hj, ?_⟩, Or.inr fun hb => ?_⟩
      · show ((s.aggiorna s.esecuzione f).des (some p)).sigHandlers i = func
        rw [hd]
        exact Function.update_self _ _ _
      · change ((s.aggiorna s.esecuzione f).des (some p)).sigMask.getLsbD i = true at hb
        rwa [hd] at hb
    · refine (Tace.aggiorna (f := f) fun hq => ⟨?_, id⟩).chiamato
      exact Function.update_of_ne (fun h => he ⟨hq, h⟩) _ _

theorem kiRaise_chiamato (sig : Int) (s : Kernel) :
    Chiamato p i (.raise sig) s (kiRaise sig s).2 := by
  by_cases hr : s.esecuzione = some p ∧ segnale sig = some i
  · refine ⟨Or.inr ?_, Or.inl ⟨sig, rfl, hr.1, hr.2⟩⟩
    simp only [kiRaise, hr.2, hr.1, Kernel.des_aggiorna, Function.update_self]
  · exact (kiRaise_tace sig fun he hs => hr ⟨he, hs⟩).chiamato

theorem esegui_chiamato {c : Chiamata} (hv : s.Vivo p)
    (h : esegui c s = .ok t) : Chiamato p i c s t := by
  cases c with
  | activateP f k prec idx risu stk =>
    have hr := kiActivatePLevel_altri h hv.occupato
    exact Tace.chiamato ⟨by rw [hr.sigHandlers], fun hb => hr.sigMask ▸ hb⟩
  | terminateP => exact (kiTerminateP_quieto h).conservati.tace.chiamato
  | semIni valore idx risu =>
    obtain rfl := Except.ok.inj h
    exact (kiSemIni_conservati valore idx risu s).tace.chiamato
  | semWait hsem => exact (kiSemWait_quieto h).conservati.tace.chiamato
  | semSignal hsem => exact (kiSemSignal_quieto h).conservati.tace.chiamato
  | delay n z => exact (attendi_quieto h).conservati.tace.chiamato
  | signal sig func =>
    obtain rfl := Except.ok.inj h
    exact kiSignal_chiamato sig func s
  | raise sig =>
    obtain rfl := Except.ok.inj h
    exact kiRaise_chiamato sig s
  | sysGetOsName q len =>
    obtain rfl := Except.ok.inj h
    unfold kiSysGetOsName
    split
    · exact (Tace.refl s).chiamato
    · exact Tace.chiamato ⟨rfl, id⟩
  | _ =>
    obtain rfl := Except.ok.inj h
    exact Tace.chiamato ⟨rfl, id⟩

/-! ## The entries -/

/-- What an entry does that does not handle `i` for `p`. -/
theorem passo_segnali (hv : s.Vivo p) (heq : passo s e = .ok t)
    (hno : ¬ Gestisce p i s e) :
    ((∃ sig func, e = .chiamata (.signal sig func) ∧ s.esecuzione = some p ∧
        segnale sig = some i ∧ (t.des (some p)).sigHandlers i = func) ∨
      (t.des (some p)).sigHandlers i = (s.des (some p)).sigHandlers i) ∧
    (Solleva p i s e ∨
      ((t.des (some p)).sigMask.getLsbD i = true → (s.des (some p)).sigMask.getLsbD i = true)) := by
  cases e with
  | chiamata c =>
    obtain ⟨s₁, h₁, h₂⟩ := bind_ok heq
    have huscita : Tace p i s₁ t := uscita_tace h₂ fun h =>
      hno ⟨s₁, by simp [primaDeiSegnali, h₁, Except.toOption], h⟩
    have hc := esegui_chiamato (i := i) hv h₁
    refine ⟨?_, ?_⟩
    · rcases hc.gestore with ⟨sig, func, rfl, he, hsig, hg⟩ | hg
      · exact Or.inl ⟨sig, func, rfl, he, hsig, huscita.gestore.trans hg⟩
      · exact Or.inr (huscita.gestore.trans hg)
    · rcases hc.bit with ⟨sig, rfl, he, hsig⟩ | hb
      · exact Or.inl ⟨he, Or.inl ⟨sig, rfl, hsig⟩⟩
      · exact Or.inr fun h => hb (huscita.bit h)
  | chiamataErrata =>
    obtain rfl := Except.ok.inj heq
    exact ⟨Or.inr rfl, Or.inr id⟩
  | tick =>
    obtain ⟨s₁, h₁, h₂⟩ := bind_ok heq
    obtain ⟨s₂, h₃, h₄⟩ := bind_ok h₁
    obtain ⟨s₃, h₅, h₆⟩ := bind_ok h₄
    have hprimo : ¬ Primo p i (s₂.aggiorna s₂.esecuzione DesProc.contato) := fun h =>
      hno ⟨_, by simp [primaDeiSegnali, h₃, Except.toOption], h⟩
    have ht : Tace p i s t := (scadenze_quieto h₃).conservati.tace.trans <|
      (Tace.aggiorna (f := DesProc.contato) fun _ => ⟨rfl, id⟩).trans <|
      (pendenti_tace h₅ hprimo).trans <|
      (turno_quieto h₆).conservati.tace.trans (caricaStato_quieto h₂).conservati.tace
    exact ⟨Or.inr ht.gestore, Or.inr ht.bit⟩
  | tasto code =>
    obtain rfl := Except.ok.inj heq
    unfold loggingKbCallback
    simp only
    split
    · exact ⟨Or.inr rfl, Or.inr id⟩
    · split
      · rename_i hcode
        have hc := kiRaise_chiamato (p := p) (i := i) SIGQUIT
          { s with kbChanged := 1, kbLast := code.toNat }
        refine ⟨Or.inr ?_, ?_⟩
        · rcases hc.gestore with ⟨sig, func, h, -⟩ | hg
          · cases h
          · exact hg
        · rcases hc.bit with ⟨sig, h, he, hsig⟩ | hb
          · obtain rfl := Chiamata.raise.inj h
            exact Or.inl ⟨he, Or.inr ⟨by rw [hcode], congrArg Fin.val (Option.some.inj hsig).symm⟩⟩
          · exact Or.inr hb
      · exact ⟨Or.inr rfl, Or.inr id⟩
  | eccezione =>
    simp only [passo, handlerNoCode] at heq
    split at heq
    · cases heq
    · obtain ⟨s₁, h₁, h₂⟩ := bind_ok heq
      have ht : Tace p i s.logShow t :=
        ((kiTerminateP_quieto h₁).trans (caricaStato_quieto h₂)).conservati.tace
      exact ⟨Or.inr ht.gestore, Or.inr ht.bit⟩
  | ritorno =>
    obtain ⟨s₁, h₁, h₂⟩ := bind_ok heq
    cases h₂

/-- A signal that is not pending and not raised is not handled. -/
theorem non_gestisce (hv : s.Vivo p)
    (hbit : (s.des (some p)).sigMask.getLsbD i = false) (hno : ¬ Solleva p i s e) :
    ¬ Gestisce p i s e := by
  rintro ⟨u, hu, hprimo⟩
  have hb := (getlsb_bit hprimo.2).2
  suffices hs : (s.des (some p)).sigMask.getLsbD i = true by
    rw [hbit] at hs
    cases hs
  cases e with
  | chiamata c =>
    cases h₁ : esegui c s with
    | error r => simp [primaDeiSegnali, h₁, Except.toOption] at hu
    | ok s₁ =>
      simp only [primaDeiSegnali, h₁, Except.toOption] at hu
      obtain rfl := Option.some.inj hu
      rcases (esegui_chiamato (i := i) hv h₁).bit with ⟨sig, rfl, he, hsig⟩ | h
      · exact absurd ⟨he, Or.inl ⟨sig, rfl, hsig⟩⟩ hno
      · exact h hb
  | tick =>
    cases h₁ : scadenze s with
    | error r => simp [primaDeiSegnali, h₁, Except.toOption] at hu
    | ok s₁ =>
      simp only [primaDeiSegnali, h₁, Except.toOption, Option.map_some] at hu
      obtain rfl := Option.some.inj hu
      have ht : Tace p i s (s₁.aggiorna s₁.esecuzione DesProc.contato) :=
        (scadenze_quieto h₁).conservati.tace.trans
          (Tace.aggiorna (f := DesProc.contato) fun _ => ⟨rfl, id⟩)
      exact ht.bit hb
  | _ => cases hu

/-- An entry that handles the signal does not leave it ignored. -/
theorem rispetta_iff : Rispetta p i s e ↔ ¬ Gestisce p i s e := by
  constructor
  · rintro h ⟨u, hu, hp⟩
    obtain ⟨v, hv, hign⟩ := h u hu hp
    have hdfl := (handlesignals_primo hv hp).symm.trans hign.gestore
    cases hdfl
  · exact fun h u hu hp => absurd ⟨u, hu, hp⟩ h

/-! ## The runs -/

theorem segnale_ignorato (es : List Evento) (s t : Kernel) (p : Pid) (i : Fin SIGCOUNT)
    (he : s.esecuzione = some p) :
    (Run (fun s e t => Vita p i s e t ∧ Rispetta p i s e) s
        (.chiamata (.signal i.val SIG_IGN) :: es) t ↔
      Run (fun s e t => Vita p i s e t ∧ ¬ Gestisce p i s e) s
        (.chiamata (.signal i.val SIG_IGN) :: es) t) ∧
    (Run (fun s e t => Vita p i s e t ∧ ¬ Gestisce p i s e) s
        (.chiamata (.signal i.val SIG_IGN) :: es) t →
      (t.des (some p)).sigHandlers i = SIG_IGN) ∧
    ((s.des (some p)).sigMask.getLsbD i = false →
      Run (fun s e t => Vita p i s e t ∧ ¬ Solleva p i s e) s
        (.chiamata (.signal i.val SIG_IGN) :: es) t →
      Run (fun s e t => Vita p i s e t ∧ ¬ Gestisce p i s e) s
        (.chiamata (.signal i.val SIG_IGN) :: es) t) ∧
    ∀ e, Rispetta p i t e ↔ ¬ Gestisce p i t e := by
  refine ⟨⟨fun hr => hr.mono fun s e t h => ⟨h.1, rispetta_iff.mp h.2⟩,
    fun hr => hr.mono fun s e t h => ⟨h.1, rispetta_iff.mpr h.2⟩⟩, fun hr => ?_, fun hbit hr => ?_,
    fun _ => rispetta_iff⟩
  · -- what one step keeps, once the signal is ignored
    have hstep : ∀ s e t, Vita p i s e t → ¬ Gestisce p i s e →
        (t.des (some p)).sigHandlers i = SIG_IGN ∨
          (t.des (some p)).sigHandlers i = (s.des (some p)).sigHandlers i := by
      intro s e t hvita hno
      rcases (passo_segnali hvita.vivo hvita.passo hno).1 with ⟨sig, func, rfl, he, hsig, hg⟩ | hg
      · exact Or.inl (hg.trans (hvita.ignora sig func rfl he hsig))
      · exact Or.inr hg
    cases hr with
    | @cons _ u _ _ _ hfirst hrest =>
      obtain ⟨hvita, hno⟩ := hfirst
      have hu : (u.des (some p)).sigHandlers i = SIG_IGN := by
        obtain ⟨s₁, h₁, h₂⟩ := bind_ok hvita.passo
        have huscita : Tace p i s₁ u := uscita_tace h₂ fun h =>
          hno ⟨s₁, by simp [primaDeiSegnali, h₁, Except.toOption], h⟩
        obtain rfl := Except.ok.inj h₁
        have hsig : segnale (i.val : Int) = some i := by
          unfold segnale
          rw [dif_pos ⟨by omega, by omega⟩]
          rfl
        apply huscita.gestore.trans
        simp only [kiSignal, hsig, he, Kernel.des_aggiorna, Function.update_self]
      refine hrest.invariant (I := fun s => (s.des (some p)).sigHandlers i = SIG_IGN) ?_ hu
      rintro s e t hi ⟨hvita, hno⟩
      rcases hstep s e t hvita hno with h | h
      · exact h
      · exact h.trans hi
  · refine hr.strengthen (I := fun s => (s.des (some p)).sigMask.getLsbD i = false) ?_ hbit
    rintro s e t hbit ⟨hvita, hno⟩
    have hg := non_gestisce hvita.vivo hbit hno
    refine ⟨⟨hvita, hg⟩, ?_⟩
    rcases (passo_segnali hvita.vivo hvita.passo hg).2 with h | h
    · exact absurd h hno
    · rw [← Bool.not_eq_true] at hbit ⊢
      exact fun hb => hbit (h hb)

/-- A test for a run without occurrences of `i`. -/
def quieto (p : Pid) (i : Fin SIGCOUNT) (s : Kernel) : Evento → Bool
  | .chiamata (.signal _ func) =>
    s.esecuzione = some p ∧ (s.des (some p)).sigMask.getLsbD i = false ∧ func = SIG_IGN
  | .chiamata (.raise sig) => segnale sig ≠ some i
  | .tasto code => code ≠ 0x86
  | _ => true

theorem quieto_vita
    (h : Avanza (fun s e => IdleVivo s e ∧ s.Vivo p ∧ quieto p i s e = true) s e t) :
    Vita p i s e t ∧ ¬ Solleva p i s e := by
  obtain ⟨-, ⟨-, hv, hq⟩, heq⟩ := h
  refine ⟨⟨heq, hv, ?_⟩, ?_⟩
  · rintro sig func rfl - -
    exact (of_decide_eq_true hq).2.2
  · rintro ⟨-, ⟨sig, rfl, hsig⟩ | ⟨rfl, -⟩⟩
    · exact of_decide_eq_true hq hsig
    · cases hq

/-- A process ignores signal 5 and raises signal 7. -/
theorem segnale_ignorato_corsa :
    ∃ s t es, Raggiunge IdleVivo [] s ∧ s.esecuzione = some 1 ∧
      es = [.chiamata (.raise 7), .tick] ∧
      Run (fun s e t => Vita 1 5 s e t ∧ ¬ Gestisce 1 5 s e) s
        (.chiamata (.signal 5 SIG_IGN) :: es) t ∧ (t.des (some 1)).sigHandlers 5 = SIG_IGN := by
  obtain ⟨x, hx, -⟩ := Sistema.prova_raggiunge (B := fun _ => True)
    (G := fun x e => IdleVivo x.kernel e ∧ x.kernel.Vivo 1 ∧ quieto 1 5 x.kernel e = true)
    [.attiva 0x7000 0 10 3 0x5010 0x5014 (pila 0x20000)]
    [.chiamata (.signal 5 SIG_IGN), .chiamata (.raise 7), .tick] (fun _ => true)
    (by decide +kernel)
  obtain ⟨s, hs, hrun⟩ := hx.kernel
    (H := fun s e => IdleVivo s e ∧ s.Vivo 1 ∧ quieto 1 5 s e = true) fun _ _ h => h
  have h0 : Raggiunge IdleVivo [] s := ⟨s, hs, .nil⟩
  have hrun' := hrun.mono fun _ _ _ => quieto_vita
  cases hrun with
  | cons hfirst _ =>
    obtain ⟨he, hbit, -⟩ := of_decide_eq_true hfirst.2.1.2.2
    obtain ⟨-, hign, hmuto, -⟩ :=
      segnale_ignorato [.chiamata (.raise 7), .tick] s x.kernel 1 5 he
    have hno := hmuto hbit hrun'
    exact ⟨s, x.kernel, _, h0, he, rfl, hno, hign hno⟩

/-- A process ignores `SIGQUIT` and raises it twice: the second time it dies. -/
theorem ignorato_ucciso :
    ∃ s, Raggiunge IdleVivo
        [.chiamata (.signal SIGQUIT SIG_IGN), .chiamata (.raise SIGQUIT), .chiamata (.raise SIGQUIT)]
        s ∧ ¬ s.Vivo 1 ∧ ∃ t, Raggiunge IdleVivo
          [.chiamata (.signal SIGQUIT SIG_IGN), .chiamata (.raise SIGQUIT)] t ∧
          t.Vivo 1 ∧ (t.des (some 1)).sigHandlers ⟨SIGQUIT, by decide⟩ = SIG_DFL := by
  obtain ⟨x, hx, hP⟩ := Sistema.prova_raggiunge (B := fun _ => True)
    (G := fun x e => IdleVivo x.kernel e) [.attiva 0x7000 0 10 3 0x5010 0x5014 (pila 0x20000)]
    [.chiamata (.signal SIGQUIT SIG_IGN), .chiamata (.raise SIGQUIT), .chiamata (.raise SIGQUIT)]
    (fun x => ¬ x.kernel.Vivo 1) (by decide +kernel)
  obtain ⟨y, hy, hQ⟩ := Sistema.prova_raggiunge (B := fun _ => True)
    (G := fun x e => IdleVivo x.kernel e) [.attiva 0x7000 0 10 3 0x5010 0x5014 (pila 0x20000)]
    [.chiamata (.signal SIGQUIT SIG_IGN), .chiamata (.raise SIGQUIT)]
    (fun x => x.kernel.Vivo 1 ∧
      (x.kernel.des (some 1)).sigHandlers ⟨SIGQUIT, by decide⟩ = SIG_DFL) (by decide +kernel)
  exact ⟨x.kernel, hx.kernel fun _ _ h => h, of_decide_eq_true hP, y.kernel,
    hy.kernel fun _ _ h => h, of_decide_eq_true hQ⟩

end Pitos
