import Pitos.Properties.Ignored
import Pitos.Properties.Messages

/-!
# Pending signals are delivered once, the lowest number first

`Segna p s l t` is what may happen to the signals of the process `p`: `ki_raise` and `ki_signal`
called by it, a call of `handlesignals` while something is pending on it, and anything else,
which leaves its mask and its handlers alone. `segnali_consegnati` keeps the books of any such
sequence: what is consumed and what is left over is what was pending and what was raised. The
next call of `handlesignals` does what it should if and only if the dump of the table fits in
its buffer (`cifreTabella`); with sixteen ignored signals it does not come back
(`consegna_perduta`). The entries of the kernel in which the dump fits are such sequences
(`passo_segna`).
-/

namespace Pitos

open Lib

/-- The signal `i` is pending. -/
def DesProc.pendente (d : DesProc) (i : Fin SIGCOUNT) : Bool := d.sigMask.getLsbD i

/-- The mask and the handlers of `p` are the same. -/
def StessiSegnali (p : Pid) (s t : Kernel) : Prop :=
  (t.des (some p)).sigMask = (s.des (some p)).sigMask ∧
    (t.des (some p)).sigHandlers = (s.des (some p)).sigHandlers

inductive Segno
  | alza (sig : Int)
  | assegna (sig : Int) (func : Word)
  | consegna (n : Fin SIGCOUNT)
  | altro
  deriving DecidableEq

inductive Segna (p : Pid) : Kernel → Segno → Kernel → Prop
  | alza (s : Kernel) (sig : Int) (he : s.esecuzione = some p) :
      Segna p s (.alza sig) (kiRaise sig s).2
  | assegna (s : Kernel) (sig : Int) (func : Word) (he : s.esecuzione = some p) :
      Segna p s (.assegna sig func) (kiSignal sig func s).2
  /-- `n` is the number that `handlesignals` selects. -/
  | consegna {s t : Kernel} {n : Fin SIGCOUNT} (he : s.esecuzione = some p)
      (hm : (s.des (some p)).sigMask ≠ 0) (hn : getlsb (s.des (some p)).sigMask = some n.val)
      (h : handlesignalsBuf s = .ok t) : Segna p s (.consegna n) t
  | altro {s t : Kernel} (h : StessiSegnali p s t) : Segna p s .altro t

/-- What becomes of the bit of `i`. -/
def Segno.bit (i : Fin SIGCOUNT) (b : Bool) : Segno → Bool
  | .alza sig => b || segnale sig = some i
  | .consegna n => b && n ≠ i
  | _ => b

/-- How often `i` was raised while it was not pending, along the list. -/
def efficaci (i : Fin SIGCOUNT) : Bool → List Segno → Nat
  | _, [] => 0
  | b, l :: ls => (if !b && l.bit i b then 1 else 0) + efficaci i (l.bit i b) ls

/-- The action of the disposition `fx` of signal `n`, and how it ends. -/
inductive Azione (n : Fin SIGCOUNT) (s : Kernel) : Word → Esito Kernel → Prop
  | ignora : Azione n s SIG_IGN (.ok s)
  | termina (hn : n.val = SIGQUIT) : Azione n s SIG_DFL (kiTerminateP s)
  | tace (hn : n.val ≠ SIGQUIT) : Azione n s SIG_DFL (.ok s)
  | errore : Azione n s SIG_ERR (.ok s)
  | gestisce {fx : Word} (h : fx ≠ SIG_IGN ∧ fx ≠ SIG_DFL ∧ fx ≠ SIG_ERR) :
      Azione n s fx (.ok (addApc s.esecuzione fx (BitVec.ofNat 32 n) s))

/-- A call of `handlesignals` for `p`: it takes the lowest pending signal `n` off the mask, sets
its disposition back and does what the disposition said. -/
structure Consegna (p : Pid) (s : Kernel) (n : Fin SIGCOUNT) (r : Esito Kernel) : Prop where
  pendente : (s.des (some p)).pendente n = true
  minimo : ∀ m < n, (s.des (some p)).pendente m = false
  azione : Azione n (s.aggiorna (some p) (DesProc.preso n)) ((s.des (some p)).sigHandlers n) r
  finisce : r ≠ .error .diverge

theorem sedici_le : 16 ≤ SIGCOUNT := by decide

/-- The hexadecimal digits of the entries that are printed, with that of `n` set back. -/
def cifreTabella (d : DesProc) (n : Fin SIGCOUNT) : Nat :=
  ∑ i : Fin 16, cifre (Function.update d.sigHandlers n SIG_DFL (i.castLE sedici_le))

/-- The texts of a call of `handlesignals` fit in its buffer. -/
def Kernel.Capiente (s : Kernel) : Prop :=
  ∀ n : Fin SIGCOUNT, getlsb (s.des s.esecuzione).sigMask = some n.val →
    cifreTabella (s.des s.esecuzione) n ≤ 83

/-- After it the process has lost the signal and nothing else. -/
structure Consumato (n : Fin SIGCOUNT) (d d' : DesProc) : Prop where
  bit : ∀ i, d'.pendente i = (d.pendente i && n ≠ i)
  gestori : ∀ i, i ≠ n → d'.sigHandlers i = d.sigHandlers i
  gestore : d'.sigHandlers n = SIG_DFL

/-! ## Bits -/

/-- The bits below the one that is found are zero. -/
theorem getlsbLoop_sotto {fuel n m : Nat} {k : Word} (h : getlsbLoop fuel k n = some m) :
    ∀ j < m - n, k.getLsbD j = false := by
  induction fuel generalizing k n with
  | zero => cases h
  | succ fuel ih =>
    unfold getlsbLoop at h
    split at h
    · rename_i hk
      intro j hj
      cases j with
      | zero =>
        have hbit := congrArg (fun w : Word => w.getLsbD 0) hk
        simpa using hbit
      | succ j =>
        have hle := (getlsbLoop_bit h).1
        have hbit := ih h j (by omega)
        rw [BitVec.getLsbD_ushiftRight, Nat.add_comm] at hbit
        exact hbit
    · obtain rfl := Option.some.inj h
      intro j hj
      omega

theorem getLsbD_uno (n i : Fin SIGCOUNT) : ((1 : Word) <<< n.val).getLsbD i = decide (n = i) := by
  have hpow : (1 : Word) <<< n.val = BitVec.twoPow 32 n.val := (BitVec.twoPow_eq 32 n.val).symm
  rw [hpow, BitVec.getLsbD_twoPow]
  simp [Fin.ext_iff]

section

variable {p : Pid} {s t : Kernel} {n i : Fin SIGCOUNT} {sig : Int} {d : DesProc}

theorem preso_pendente (n i : Fin SIGCOUNT) (d : DesProc) :
    (d.preso n).pendente i = (d.pendente i && n ≠ i) := by
  have hi := i.isLt
  simp only [DesProc.pendente, DesProc.preso, BitVec.getLsbD_and, BitVec.getLsbD_not, getLsbD_uno,
    hi, decide_true, Bool.true_and, decide_not]

theorem preso_consumato (n : Fin SIGCOUNT) (d : DesProc) : Consumato n d (d.preso n) :=
  ⟨fun i => preso_pendente n i d, fun _ hi => Function.update_of_ne hi _ _,
    Function.update_self _ _ _⟩

/-! ## The routines -/

/-- A number outside the table changes nothing. -/
theorem kiRaise_rifiuta (h : segnale sig = none) : kiRaise sig s = (-1, s) := by
  rw [kiRaise, h]

/-- A number inside sets its bit, for the current process. -/
theorem kiRaise_alza (he : s.esecuzione = some p) (i : Fin SIGCOUNT) :
    (((kiRaise sig s).2.des (some p)).pendente i) =
      ((s.des (some p)).pendente i || segnale sig = some i) := by
  unfold kiRaise
  split
  · rename_i h
    simp [h]
  · rename_i j hj
    rw [he, Kernel.des_aggiorna, Function.update_self]
    simp only [DesProc.pendente, BitVec.getLsbD_or, getLsbD_uno, hj, Option.some.injEq]

/-- An action comes back, or the kernel halts in it. -/
theorem Azione.esito {fx : Word} {r : Esito Kernel} (h : Azione n s fx r) :
    (∃ t, r = .ok t) ∨ ∃ t, r = .error (.halt t) := by
  cases h with
  | termina hn =>
    unfold kiTerminateP
    simp only
    split
    · exact Or.inr ⟨_, rfl⟩
    · exact Or.inl ⟨_, rfl⟩
  | _ => exact Or.inl ⟨_, rfl⟩

/-- It neither loops nor loses the way back. -/
theorem Azione.finisce {fx : Word} {r : Esito Kernel} (h : Azione n s fx r) :
    r ≠ .error .diverge ∧ ∀ u, r ≠ .error (.perduto u) := by
  rcases h.esito with ⟨t, rfl⟩ | ⟨t, rfl⟩
  · exact ⟨nofun, fun u => nofun⟩
  · exact ⟨nofun, fun u => nofun⟩

/-- The texts of `handlesignals` fit, or it is lost. -/
theorem handlesignalsBuf_eq (hn : getlsb (s.des s.esecuzione).sigMask = some n.val) :
    handlesignalsBuf s =
      if cifreTabella (s.des s.esecuzione) n ≤ 83 then handlesignals s
      else .error (.perduto s) := by
  have hbuf : BUF = 100 := rfl
  have htesti : (∀ t ∈ testiSegnale (indirizzo s.link s.esecuzione) (s.des s.esecuzione) n,
      t.length < BUF) ↔ cifreTabella (s.des s.esecuzione) n ≤ 83 := by
    rw [testi_tabella, tabella_length, cifreTabella]
    omega
  unfold handlesignalsBuf
  rw [hn]
  simp only [n.isLt, dif_pos]
  exact if_congr htesti rfl rfl

theorem handlesignalsBuf_capiente (h : s.Capiente) (hm : (s.des s.esecuzione).sigMask ≠ 0) :
    handlesignalsBuf s = handlesignals s := by
  obtain ⟨n, hn⟩ := getlsb_some hm
  rw [handlesignalsBuf_eq hn, if_pos (h n hn)]

theorem handlesignalsBuf_ok (h : handlesignalsBuf s = .ok t)
    (hn : getlsb (s.des s.esecuzione).sigMask = some n.val) : handlesignals s = .ok t := by
  rw [handlesignalsBuf_eq hn] at h
  split at h
  · exact h
  · cases h

/-- On a mask that is not zero `handlesignals` ends, with the action of one signal. -/
theorem handlesignals_consegna (he : s.esecuzione = some p)
    (hn : getlsb (s.des (some p)).sigMask = some n.val) : Consegna p s n (handlesignals s) := by
  have hazione : Azione n (s.aggiorna (some p) (DesProc.preso n))
      ((s.des (some p)).sigHandlers n) (handlesignals s) := by
    unfold handlesignals
    rw [he, hn]
    simp only [n.isLt, dif_pos]
    split
    · rename_i hfx
      rw [hfx]
      exact .ignora
    · split
      · rename_i hfx
        rw [hfx]
        split
        · rename_i hquit
          exact .termina hquit
        · rename_i hquit
          exact .tace hquit
      · split
        · rename_i hfx
          rw [hfx]
          exact .errore
        · rename_i h1 h2 h3
          exact .gestisce ⟨h1, h2, h3⟩
  exact ⟨(getlsb_bit hn).2, fun m hmn => getlsbLoop_sotto hn m.val (by omega), hazione,
    hazione.finisce.1⟩

/-- The call with its texts does the action of the signal exactly when they fit. -/
theorem handlesignalsBuf_consegna (he : s.esecuzione = some p)
    (hn : getlsb (s.des (some p)).sigMask = some n.val) :
    Consegna p s n (handlesignalsBuf s) ↔ cifreTabella (s.des (some p)) n ≤ 83 := by
  have heq := handlesignalsBuf_eq (he ▸ hn)
  rw [he] at heq
  constructor
  · intro h
    by_contra hlunga
    rw [if_neg hlunga] at heq
    exact h.azione.finisce.2 s heq
  · intro h
    rw [heq, if_pos h]
    exact handlesignals_consegna he hn

/-- What it leaves to the process, whatever the action. -/
theorem handlesignals_consumato (h : handlesignals s = .ok t) (he : s.esecuzione = some p)
    (hn : getlsb (s.des (some p)).sigMask = some n.val) :
    Consumato n (s.des (some p)) (t.des (some p)) := by
  obtain ⟨j, hj, hc⟩ := handlesignals_parti h
  rw [he, hn] at hj
  obtain rfl : n = j := Fin.ext (Option.some.inj hj)
  have hreg := hc (some p)
  rw [he, Kernel.des_aggiorna, Function.update_self] at hreg
  have hp := preso_consumato n (s.des (some p))
  refine ⟨fun i => ?_, fun i hi => ?_, ?_⟩
  · rw [DesProc.pendente, hreg.sigMask]
    exact hp.bit i
  · rw [hreg.sigHandlers]
    exact hp.gestori i hi
  · rw [hreg.sigHandlers]
    exact hp.gestore

/-! ## The books -/

/-- One step and the bit of `i`; a signal that is consumed was pending. -/
theorem Segna.bit {l : Segno} (h : Segna p s l t) (i : Fin SIGCOUNT) :
    (t.des (some p)).pendente i = l.bit i ((s.des (some p)).pendente i) ∧
      (l = .consegna i → (s.des (some p)).pendente i = true) := by
  cases h with
  | alza sig he => exact ⟨kiRaise_alza he i, nofun⟩
  | assegna sig func he =>
    refine ⟨?_, nofun⟩
    unfold kiSignal
    split
    · rfl
    · rw [he, Kernel.des_aggiorna, Function.update_self]
      rfl
  | consegna he hm hn h =>
    have h' := handlesignalsBuf_ok h (he ▸ hn)
    refine ⟨(handlesignals_consumato h' he hn).bit i, fun hi => ?_⟩
    obtain rfl := Segno.consegna.inj hi
    exact (getlsb_bit hn).2
  | altro h => exact ⟨by rw [DesProc.pendente, h.1]; rfl, nofun⟩

/-- Nothing but its consumption clears a pending bit. -/
theorem Segno.bit_true {l : Segno} (hl : l ≠ .consegna i) : l.bit i true = true := by
  cases l with
  | consegna n =>
    have hn : n ≠ i := fun e => hl (e ▸ rfl)
    simp [Segno.bit, hn]
  | _ => rfl

/-- Along a sequence the bit of `i` is what the labels make of it. -/
theorem Segna.bit_run {ls : List Segno} (h : Run (Segna p) s ls t) (i : Fin SIGCOUNT) :
    (t.des (some p)).pendente i = ls.foldl (Segno.bit i) ((s.des (some p)).pendente i) := by
  induction h with
  | nil => rfl
  | cons hs _ ih =>
    rw [ih, (hs.bit i).1]
    rfl

/-- What is consumed and what is left is what was pending and what was raised. -/
theorem Segna.conti {ls : List Segno} (h : Run (Segna p) s ls t) (i : Fin SIGCOUNT) :
    ls.count (.consegna i) + ((t.des (some p)).pendente i).toNat =
      ((s.des (some p)).pendente i).toNat + efficaci i ((s.des (some p)).pendente i) ls := by
  induction h with
  | nil => simp [efficaci]
  | @cons s u t l ls hs _ ih =>
    obtain ⟨hbit, hcons⟩ := hs.bit i
    rw [List.count_cons, efficaci, ← hbit]
    have hstep : (if (l == Segno.consegna i) = true then 1 else 0) +
        ((u.des (some p)).pendente i).toNat = ((s.des (some p)).pendente i).toNat +
          (if !(s.des (some p)).pendente i && (u.des (some p)).pendente i then 1 else 0) := by
      by_cases hl : l = .consegna i
      · subst hl
        rw [hbit, hcons rfl]
        simp [Segno.bit]
      · have hmono := Segno.bit_true hl
        rw [if_neg (by simpa using hl)]
        cases hb : (s.des (some p)).pendente i with
        | true =>
          rw [hbit, hb, hmono]
          rfl
        | false => cases (u.des (some p)).pendente i <;> rfl
    omega

/-! ## The entries of the kernel -/

theorem Conservati.stessiSegnali (h : Conservati s t) : StessiSegnali p s t :=
  ⟨(h (some p)).sigMask, (h (some p)).sigHandlers⟩

/-- An assignment to another descriptor. -/
theorem aggiorna_stessiSegnali {q : DesPtr} (hq : q ≠ some p) (f : DesProc → DesProc) :
    StessiSegnali p s (s.aggiorna q f) := by
  have hd : (s.aggiorna q f).des (some p) = s.des (some p) := by
    rw [Kernel.des_aggiorna, Function.update_of_ne (Ne.symm hq)]
  exact ⟨by rw [hd], by rw [hd]⟩

theorem Segna.quieto (h : Conservati s t) : ∃ ls, Run (Segna p) s ls t :=
  ⟨_, Run.single (.altro h.stessiSegnali)⟩

theorem kiRaise_segna (sig : Int) (s : Kernel) : ∃ l, Segna p s l (kiRaise sig s).2 := by
  by_cases he : s.esecuzione = some p
  · exact ⟨_, .alza s sig he⟩
  · refine ⟨_, .altro ?_⟩
    unfold kiRaise
    split
    · exact (Conservati.refl s).stessiSegnali
    · rename_i i _
      have h := aggiorna_stessiSegnali (s := s) he
        fun d => { d with sigMask := d.sigMask ||| (1 : Word) <<< i.val }
      exact h

theorem kiSignal_segna (sig : Int) (func : Word) (s : Kernel) :
    ∃ l, Segna p s l (kiSignal sig func s).2 := by
  by_cases he : s.esecuzione = some p
  · exact ⟨_, .assegna s sig func he⟩
  · refine ⟨_, .altro ?_⟩
    unfold kiSignal
    split
    · exact (Conservati.refl s).stessiSegnali
    · rename_i i _
      have h := aggiorna_stessiSegnali (s := s) he
        fun d => { d with sigHandlers := Function.update d.sigHandlers i func }
      exact h

/-- The two places that call `handlesignals` look at the mask first. -/
theorem pendenti_segna (hb : s.Capiente)
    (h : (if (s.des s.esecuzione).sigMask ≠ 0 then handlesignals s else .ok s) = .ok t) :
    ∃ ls, Run (Segna p) s ls t := by
  split at h
  · rename_i hm
    obtain ⟨j, hj, hc⟩ := handlesignals_parti h
    by_cases he : s.esecuzione = some p
    · rw [← handlesignalsBuf_capiente hb hm] at h
      rw [he] at hm hj
      exact ⟨_, Run.single (.consegna he hm hj h)⟩
    · have h1 := aggiorna_stessiSegnali (s := s) he (DesProc.preso j)
      have h2 := hc.stessiSegnali (p := p)
      exact ⟨_, Run.single (.altro ⟨h2.1.trans h1.1, h2.2.trans h1.2⟩)⟩
  · obtain rfl := Except.ok.inj h
    exact ⟨[], .nil⟩

theorem signalsCheck_segna (hb : s.Capiente) (h : signalsCheck s = .ok t) :
    ∃ ls, Run (Segna p) s ls t :=
  pendenti_segna hb (signalsCheck_ok h).2

theorem Segna.trans {u : Kernel} (h : ∃ ls, Run (Segna p) s ls t)
    (h' : ∃ ls, Run (Segna p) t ls u) : ∃ ls, Run (Segna p) s ls u := by
  obtain ⟨ls, hl⟩ := h
  obtain ⟨ms, hm⟩ := h'
  exact ⟨ls ++ ms, hl.append hm⟩

theorem esegui_segna {c : Chiamata} (hv : s.Vivo p) (h : esegui c s = .ok t) :
    ∃ l, Segna p s l t := by
  cases c with
  | activateP f k prec idx risu stk =>
    have hr := kiActivatePLevel_altri h hv.occupato
    exact ⟨_, .altro ⟨hr.sigMask, hr.sigHandlers⟩⟩
  | terminateP => exact ⟨_, .altro (kiTerminateP_quieto h).conservati.stessiSegnali⟩
  | semIni valore idx risu =>
    obtain rfl := Except.ok.inj h
    exact ⟨_, .altro (kiSemIni_conservati valore idx risu s).stessiSegnali⟩
  | semWait hsem => exact ⟨_, .altro (kiSemWait_quieto h).conservati.stessiSegnali⟩
  | semSignal hsem => exact ⟨_, .altro (kiSemSignal_quieto h).conservati.stessiSegnali⟩
  | delay n z => exact ⟨_, .altro (attendi_quieto h).conservati.stessiSegnali⟩
  | signal sig func =>
    obtain rfl := Except.ok.inj h
    exact kiSignal_segna sig func s
  | raise sig =>
    obtain rfl := Except.ok.inj h
    exact kiRaise_segna sig s
  | sysGetOsName q len =>
    obtain rfl := Except.ok.inj h
    refine ⟨_, .altro ?_⟩
    unfold kiSysGetOsName
    split <;> exact ⟨rfl, rfl⟩
  | _ =>
    obtain rfl := Except.ok.inj h
    exact ⟨_, .altro ⟨rfl, rfl⟩⟩

/-- What an entry of the kernel does to the signals of a live process is such a sequence, when
the texts of the signal that it handles fit. -/
theorem passo_segna {e : Evento} (hv : s.Vivo p)
    (hb : ∀ u, primaDeiSegnali s e = some u → u.Capiente) (h : passo s e = .ok t) :
    ∃ ls, Run (Segna p) s ls t := by
  cases e with
  | chiamata c =>
    obtain ⟨s₁, h₁, h₂⟩ := bind_ok h
    obtain ⟨s₂, h₂, h₃⟩ := bind_ok h₂
    obtain ⟨l, hl⟩ := esegui_segna hv h₁
    have hb₁ : s₁.Capiente := hb s₁ (by simp [primaDeiSegnali, h₁, Except.toOption])
    exact Segna.trans ⟨_, Run.single hl⟩ (Segna.trans (signalsCheck_segna hb₁ h₂)
      (Segna.quieto (caricaStato_quieto h₃).conservati))
  | chiamataErrata =>
    obtain rfl := Except.ok.inj h
    exact ⟨_, Run.single (.altro ⟨rfl, rfl⟩)⟩
  | tick =>
    obtain ⟨s₁, h₁, h₂⟩ := bind_ok h
    obtain ⟨s₂, h₃, h₄⟩ := bind_ok h₁
    obtain ⟨s₃, h₅, h₆⟩ := bind_ok h₄
    have hconta : Conservati s₂ (s₂.aggiorna s₂.esecuzione DesProc.contato) :=
      .aggiorna s₂ _ fun _ => ⟨rfl, rfl, rfl, rfl, rfl⟩
    have hb₂ : (s₂.aggiorna s₂.esecuzione DesProc.contato).Capiente :=
      hb _ (by simp [primaDeiSegnali, h₃, Except.toOption])
    exact Segna.trans (Segna.quieto ((scadenze_quieto h₃).conservati.trans hconta))
      (Segna.trans (pendenti_segna hb₂ h₅) (Segna.quieto
        ((turno_quieto h₆).trans (caricaStato_quieto h₂)).conservati))
  | tasto code =>
    obtain rfl := Except.ok.inj h
    unfold loggingKbCallback
    simp only
    split
    · exact ⟨_, Run.single (.altro ⟨rfl, rfl⟩)⟩
    · split
      · obtain ⟨l, hl⟩ := kiRaise_segna (p := p) SIGQUIT
          { s with kbChanged := 1, kbLast := code.toNat }
        refine Segna.trans ⟨_, Run.single (.altro ?_)⟩ ⟨_, Run.single hl⟩
        exact ⟨rfl, rfl⟩
      · exact ⟨_, Run.single (.altro ⟨rfl, rfl⟩)⟩
  | eccezione =>
    simp only [passo, handlerNoCode] at h
    split at h
    · cases h
    · obtain ⟨s₁, h₁, h₂⟩ := bind_ok h
      have hq : Conservati s.logShow t :=
        ((kiTerminateP_quieto h₁).trans (caricaStato_quieto h₂)).conservati
      exact Segna.quieto hq
  | ritorno =>
    obtain ⟨s₁, h₁, h₂⟩ := bind_ok h
    cases h₂

/-- **Pending signals are delivered once, the lowest number first.** In every state that a
sequence of calls comes to, the books are in order, and the next call of `handlesignals` consumes
the lowest pending signal and does its action if and only if the table that it prints, with that
signal set back, has at most 83 hexadecimal digits. -/
theorem segnali_consegnati (p : Pid) (s t : Kernel) (ls : List Segno)
    (h : Run (Segna p) s ls t) :
    (∀ i, ls.count (.consegna i) + ((t.des (some p)).pendente i).toNat =
        ((s.des (some p)).pendente i).toNat + efficaci i ((s.des (some p)).pendente i) ls ∧
      (t.des (some p)).pendente i = ls.foldl (Segno.bit i) ((s.des (some p)).pendente i)) ∧
    (t.esecuzione = some p → (t.des (some p)).sigMask ≠ 0 → ∃ n : Fin SIGCOUNT,
      getlsb (t.des (some p)).sigMask = some n.val ∧
        ((Consegna p t n (handlesignalsBuf t) ∧
            ∀ u, handlesignalsBuf t = .ok u → Consumato n (t.des (some p)) (u.des (some p))) ↔
          cifreTabella (t.des (some p)) n ≤ 83)) ∧
    ∀ sig : Int, (¬ (0 ≤ sig ∧ sig < SIGCOUNT) → kiRaise sig t = (-1, t)) ∧
      (t.esecuzione = some p → ∀ i, ((kiRaise sig t).2.des (some p)).pendente i =
        ((t.des (some p)).pendente i || segnale sig = some i)) := by
  refine ⟨fun i => ⟨Segna.conti h i, Segna.bit_run h i⟩, fun he hm => ?_, fun sig =>
    ⟨fun hsig => kiRaise_rifiuta (dif_neg hsig), fun he i => kiRaise_alza he i⟩⟩
  obtain ⟨n, hn⟩ := getlsb_some hm
  have hiff := handlesignalsBuf_consegna he hn
  refine ⟨n, hn, fun hc => hiff.mp hc.1, fun hle => ⟨hiff.mpr hle, fun u hu => ?_⟩⟩
  exact handlesignals_consumato (handlesignalsBuf_ok hu (he ▸ hn)) he hn

end

/-- Process 1 raises 9 and then 4, and 4 is the one that is handled. -/
theorem segnali_consegnati_corsa : ∃ s t, Raggiunge IdleVivo [.tasto 2] s ∧
    Run (Segna 1) s [.alza 9, .alza 4] t ∧ ∃ n : Fin SIGCOUNT,
      getlsb (t.des (some 1)).sigMask = some n.val ∧
        (Consegna 1 t n (handlesignalsBuf t) ∧ ∀ u, handlesignalsBuf t = .ok u →
          Consumato n (t.des (some 1)) (u.des (some 1))) := by
  obtain ⟨x, hx, hP⟩ := Sistema.prova_raggiunge (B := fun _ => True)
    (G := fun x e => IdleVivo x.kernel e)
    [.attiva 0x7000 0 10 3 0x5010 0x5014 (pila 0x20000)] [.tasto 2]
    (fun x => x.kernel.esecuzione = some 1 ∧
      getlsb ((kiRaise 4 (kiRaise 9 x.kernel).2).2.des (some 1)).sigMask = some 4 ∧
      ((kiRaise 4 (kiRaise 9 x.kernel).2).2.des (some 1)).sigMask ≠ 0 ∧
      cifreTabella ((kiRaise 4 (kiRaise 9 x.kernel).2).2.des (some 1)) 4 ≤ 83) (by decide +kernel)
  obtain ⟨he, h4, hm, hle⟩ := of_decide_eq_true hP
  have hrun : Run (Segna 1) x.kernel [.alza 9, .alza 4] (kiRaise 4 (kiRaise 9 x.kernel).2).2 :=
    .cons (.alza x.kernel 9 he) (.single (.alza _ 4 he))
  obtain ⟨n, hn, hiff⟩ := (segnali_consegnati 1 _ _ _ hrun).2.1 he hm
  obtain rfl : n = 4 := Fin.ext (Option.some.inj (hn.symm.trans h4))
  exact ⟨_, _, hx.kernel fun _ _ h => h, hrun, 4, hn, hiff.mpr hle⟩

/-- Process 1 ignores the first sixteen signals and raises 20: the dump runs over the return
address of `handlesignals`, and no action of a signal ends so. -/
theorem consegna_perduta : ∃ s, Raggiunge IdleVivo
    ((List.range 16).map fun i => .chiamata (.signal i SIG_IGN)) s ∧ ∃ t,
      Run (Segna 1) s [.alza 20] t ∧ t.esecuzione = some 1 ∧ (t.des (some 1)).sigMask ≠ 0 ∧
        handlesignalsBuf t = .error (.perduto t) ∧
          ∀ n, ¬ Consegna 1 t n (handlesignalsBuf t) := by
  obtain ⟨x, hx, hP⟩ := Sistema.prova_raggiunge (B := fun _ => True)
    (G := fun x e => IdleVivo x.kernel e)
    [.attiva 0x7000 0 10 3 0x5010 0x5014 (pila 0x20000)]
    ((List.range 16).map fun i => .chiamata (.signal i SIG_IGN))
    (fun x => x.kernel.esecuzione = some 1 ∧
      getlsb ((kiRaise 20 x.kernel).2.des (some 1)).sigMask = some 20 ∧
      ((kiRaise 20 x.kernel).2.des (some 1)).sigMask ≠ 0 ∧
      ¬ cifreTabella ((kiRaise 20 x.kernel).2.des (some 1)) 20 ≤ 83) (by decide +kernel)
  obtain ⟨he, h20, hm, hlunga⟩ := of_decide_eq_true hP
  have het : (kiRaise 20 x.kernel).2.esecuzione = some 1 := he
  have heq := handlesignalsBuf_eq (s := (kiRaise 20 x.kernel).2) (n := 20) (het ▸ h20)
  rw [het, if_neg hlunga] at heq
  refine ⟨x.kernel, hx.kernel fun _ _ h => h, _, .single (.alza x.kernel 20 he), het, hm, heq, ?_⟩
  exact fun n hc => hc.azione.finisce.2 _ heq

end Pitos
