import Pitos.Refinement.Calls

/-!
# The entries of the kernel are sequences of moves

One entry (`passo`) is a short sequence of moves whose labels say what happened (`Traccia`): a
call is its own move and then what a pending signal does; a tick is the timer, the charge to
the current process, what a pending signal does, and the decision who goes on. `passo_mosse`
puts this together for the entries the machine can make (`Ammesso`): an entry that comes back
ends in a state that represents the end of its moves; otherwise the kernel has halted because
the idle process alone was left, or a signal was sent to a semaphore where nobody waits though
`count` says so (`SegnaleVuoto`).
-/

namespace Pitos

open Lib

/-! ## The lowest bit of a mask -/

/-- On a word that is not zero the loop of `getlsb` ends in time. -/
theorem getlsbLoop_some (fuel : Nat) {k : Word} {n : Nat} (hk : k ≠ 0) (hlt : k.toNat < 2 ^ fuel) :
    ∃ m, getlsbLoop fuel k n = some m ∧ m < n + fuel := by
  induction fuel generalizing k n with
  | zero =>
    exfalso
    apply hk
    apply BitVec.eq_of_toNat_eq
    simpa using hlt
  | succ fuel ih =>
    unfold getlsbLoop
    split
    · rename_i hbit
      have heven : k.toNat % 2 = 0 := by
        have h := congrArg BitVec.toNat hbit
        simpa [BitVec.toNat_and, Nat.and_one_is_mod] using h
      have hshift : (k >>> 1).toNat = k.toNat / 2 := by
        simp [BitVec.toNat_ushiftRight, Nat.shiftRight_eq_div_pow]
      have hk' : k >>> 1 ≠ 0 := by
        intro h0
        rw [h0] at hshift
        apply hk
        apply BitVec.eq_of_toNat_eq
        have h0' : (0 : Word).toNat = 0 := rfl
        rw [h0'] at hshift ⊢
        omega
      obtain ⟨m, hm, hlt'⟩ := ih hk' (n := n + 1) (by rw [hshift, pow_succ] at *; omega)
      exact ⟨m, hm, by omega⟩
    · exact ⟨n, rfl, by omega⟩

theorem getlsb_some {k : Word} (hk : k ≠ 0) : ∃ n : Fin SIGCOUNT, getlsb k = some n.val := by
  obtain ⟨m, hm, hlt⟩ := getlsbLoop_some 32 (n := 0) hk (by have := k.isLt; omega)
  exact ⟨⟨m, by omega⟩, hm⟩

/-! ## Signals -/

/-- The idle process is dead and has no place any more, and another process runs. -/
structure Perso (a : Astratto) : Prop where
  libero : (a.dati idle).stato = .FREE
  assente : a.presenze idle = 0
  altro : ∃ r, a.esecuzione = some r ∧ r ∈ a.vivi

theorem Perso.turno {a b : Astratto} {t : Atto} (h : Perso a) (hm : Mossa a t b) (ht : Turno t)
    (hU : Unico a) : Perso b :=
  ⟨(hm.turno_stato ht hU h.assente).trans h.libero, (hm.turno_presenze ht hU _).trans h.assente,
    hm.turno_vivo ht h.altro⟩

/-- What signal handling does to the process that has the CPU. -/
def Segnali (ts : List Atto) : Prop :=
  ts = [] ∨ ts = [.dati] ∨ ∃ p, p ≠ idle ∧ ts = [.dati, .termina p]

/-- The first pending signal is `SIGQUIT`, and nothing else has been asked for. -/
def DesProc.Muore (d : DesProc) : Prop :=
  getlsb d.sigMask = some SIGQUIT ∧ d.sigHandlers ⟨SIGQUIT, by decide⟩ = SIG_DFL

theorem Segnali.chiude {ts : List Atto} (h : Segnali ts) : .chiude ∉ ts := by
  rcases h with rfl | rfl | ⟨p, -, rfl⟩ <;> simp

/-- The charge of a tick and a signal that does not kill change the descriptor of the current
process only, and not its place or its turn. -/
theorem Segnali.conta {a b : Astratto} {sig : List Atto} {p : Pid} (hsig : Segnali sig)
    (hr : Run Mossa a (.conta :: sig) b) (he : a.esecuzione = some p)
    (hno : sig ≠ [.dati, .termina p]) :
    ∃ d, StessoTurno (a.dati p).contato d ∧ b = a.aggiorna p fun _ => d := by
  cases hr with
  | cons hm hrest =>
    cases hm with
    | conta q hq =>
      obtain rfl := Option.some.inj (he.symm.trans hq)
      rcases hsig with rfl | rfl | ⟨r, -, rfl⟩
      · cases hrest
        exact ⟨_, .refl _, rfl⟩
      · cases hrest with
        | cons hm hnil =>
          cases hnil
          cases hm with
          | dati r d hr hri h =>
            obtain rfl := Option.some.inj (he.symm.trans hr)
            refine ⟨d, ?_, ?_⟩
            · rwa [Astratto.dati_aggiorna, Function.update_self] at h
            · simp only [Astratto.aggiorna, Function.update_idem]
      · cases hrest with
        | cons hm hrest =>
          cases hrest with
          | cons hm' hnil =>
            cases hm with
            | dati r' d hr _ _ =>
              cases hm' with
              | termina _ hr' _ =>
                obtain rfl := Option.some.inj (he.symm.trans hr')
                exact absurd rfl hno

namespace Rappr

variable {s : Kernel} {a : Astratto} {p q : Pid}

theorem handlesignals_eq (hR : Rappr s a) (hI : Inv a) (he : a.esecuzione = some p)
    (hp : p ≠ idle) (hmask : (s.des (some p)).sigMask ≠ 0) :
    ∃ s' ts b, handlesignals s = .ok s' ∧ Segnali ts ∧
      (ts = [.dati, .termina p] ↔ (s.des (some p)).Muore) ∧ Run Mossa a ts b ∧ Rappr s' b := by
  have hesec : s.esecuzione = some p := hR.esecuzione.trans he
  obtain ⟨i, hi⟩ := getlsb_some hmask
  let f : DesProc → DesProc := fun d => { d with
    sigHandlers := Function.update d.sigHandlers i SIG_DFL
    sigMask := d.sigMask &&& ~~~((1 : Word) <<< i.val) }
  have hm : Mossa a .dati (a.aggiorna p f) :=
    Mossa.aggiorna he hp f fun d => ⟨rfl, rfl, rfl, rfl, rfl⟩
  have hR₁ : Rappr (s.aggiorna (some p) f) (a.aggiorna p f) := hR.aggiorna p f
  have hI₁ := hm.inv hI
  have hdati : Segnali [.dati] := Or.inr (Or.inl rfl)
  have hsalvo : (getlsb (s.des (some p)).sigMask = some SIGQUIT →
      (s.des (some p)).sigHandlers ⟨SIGQUIT, by decide⟩ ≠ SIG_DFL) →
      ([Atto.dati] = [.dati, .termina p] ↔ (s.des (some p)).Muore) := fun h =>
    ⟨fun e => (by cases e), fun hd => absurd hd.2 (h hd.1)⟩
  have hsig : getlsb (s.des (some p)).sigMask = some SIGQUIT →
      i = ⟨SIGQUIT, by decide⟩ := fun h => Fin.ext (Option.some.inj (hi.symm.trans h))
  unfold handlesignals
  rw [hesec]
  simp only [hi, i.isLt, dif_pos]
  split
  · rename_i hign
    refine ⟨_, [.dati], _, rfl, hdati, hsalvo fun h => ?_, Run.single hm, hR₁⟩
    rw [← hsig h, hign]
    decide
  · split
    · rename_i hdfl
      split
      · rename_i hquit
        obtain ⟨s', b, heq, ht, hR'⟩ := hR₁.kiTerminateP_eq hI₁ he hp
        refine ⟨s', [.dati, .termina p], b, heq, Or.inr (Or.inr ⟨p, hp, rfl⟩),
          ⟨fun _ => ⟨hi.trans (congrArg some hquit), ?_⟩, fun _ => rfl⟩, .cons hm (.single ht), hR'⟩
        rw [← hsig (hi.trans (congrArg some hquit))]
        exact hdfl
      · rename_i hquit
        exact ⟨_, [.dati], _, rfl, hdati, hsalvo fun h => absurd (congrArg Fin.val (hsig h)) hquit,
          Run.single hm, hR₁⟩
    · rename_i hdfl
      have hno := hsalvo fun h => by
        rw [← hsig h]
        exact hdfl
      split
      · exact ⟨_, [.dati], _, rfl, hdati, hno, Run.single hm, hR₁⟩
      · exact ⟨_, [.dati], _, rfl, hdati, hno, Run.single hm, hR₁.setMem _⟩

/-- The end of the idle process while others are ready. -/
theorem kiTerminateP_perso (hR : Rappr s a) (hU : Unico a) (he : a.esecuzione = some idle)
    (hne : a.pronti ≠ []) :
    ∃ s' b, kiTerminateP s = .ok s' ∧ Rappr s' b ∧ Unico b ∧ Perso b := by
  have hR₁ := (hR.aggiorna idle DesProc.libero).setProcCount (int32 (s.procCount - 1))
  have hpresenze : ∀ q, (((a.aggiorna idle DesProc.libero).setProcCount
      (int32 (s.procCount - 1))).schedulatore).presenze q = a.inCoda q := fun q =>
    Astratto.presenze_schedulatore hne
  refine ⟨Pitos.schedulatore { s.aggiorna (some idle) DesProc.libero with
    procCount := int32 (s.procCount - 1) }, _, ?_, hR₁.schedulatore hU.separati, fun q => ?_,
    ?_, ?_, Mossa.schedulatore_vivo hne⟩
  · simp only [kiTerminateP, hR.esecuzione, he]
    exact if_neg (hR.pronti_ne_none hne)
  · rw [hpresenze]
    exact hU.separati q
  · refine (Mossa.stato_schedulatore ?_).trans ?_
    · exact not_mem_pronti (a := a) (hU.inCoda_esecuzione he)
    · show ((a.aggiorna idle DesProc.libero).dati idle).stato = .FREE
      rw [Astratto.dati_aggiorna, Function.update_self]
      rfl
  · rw [hpresenze]
    exact hU.inCoda_esecuzione he

/-- `SIGQUIT` ends the idle process: the kernel halts when nobody is ready, and otherwise it
goes on without it. -/
theorem handlesignals_idle (hR : Rappr s a) (hI : Inv a) (hZ : Mossa.Zitto a)
    (hmask : (a.dati idle).sigMask ≠ 0) :
    (∃ s', handlesignals s = .error (.halt s') ∧
      ∀ p, (s'.des (some p)).stato ≠ .FREE ↔ p ≠ idle ∧ p ∈ a.vivi) ∨
    (a.pronti ≠ [] ∧
      ∃ s' b, handlesignals s = .ok s' ∧ Rappr s' b ∧ Unico b ∧ Perso b) := by
  obtain ⟨he, hquit⟩ := hZ.quit hmask
  have hesec : s.esecuzione = some idle := hR.esecuzione.trans he
  have hlsb : getlsb (s.des (some idle)).sigMask = some SIGQUIT := by
    rw [hR.sigMask, hquit]
    decide
  have hfx : (s.des (some idle)).sigHandlers ⟨SIGQUIT, by decide⟩ = SIG_DFL := by
    have h := congrArg (fun d => d.sigHandlers ⟨SIGQUIT, by decide⟩) (hR.dati idle)
    exact h.trans hZ.gestore
  let f : DesProc → DesProc := fun d => { d with
    sigHandlers := Function.update d.sigHandlers ⟨SIGQUIT, by decide⟩ SIG_DFL
    sigMask := d.sigMask &&& ~~~((1 : Word) <<< SIGQUIT) }
  have hvivi : (a.aggiorna idle f).vivi = a.vivi := by
    ext p
    by_cases hp : p = idle <;> simp [hp, f]
  have hI₁ : Inv (a.aggiorna idle f) :=
    ⟨hI.unico, fun p hp => hvivi ▸ hI.vivo p hp, hI.idle, by rw [hvivi]; exact hI.conta,
      hI.indirizzi, hI.heap⟩
  have hR₁ : Rappr (s.aggiorna (some idle) f) (a.aggiorna idle f) := hR.aggiorna idle f
  have heq : handlesignals s = kiTerminateP (s.aggiorna (some idle) f) := by
    have hlt : SIGQUIT < SIGCOUNT := by decide
    have hign : SIG_DFL ≠ SIG_IGN := by decide
    unfold handlesignals
    rw [hesec]
    simp only [hlsb, hlt, dif_pos, hfx, hign, if_false, if_true]
    rfl
  rw [heq]
  by_cases hne : a.pronti = []
  · obtain ⟨s', heq', hvivo⟩ := hR₁.kiTerminateP_idle he hne
    rw [hvivi] at hvivo
    exact Or.inl ⟨s', heq', hvivo⟩
  · exact Or.inr ⟨hne, hR₁.kiTerminateP_perso hI₁.unico he hne⟩

/-- A signal pending on the current process is handled. -/
theorem pendenti_eq (hR : Rappr s a) (hI : Inv a) (he : a.esecuzione = some p)
    (hz : p = idle → (a.dati idle).sigMask = 0) :
    ∃ s' ts b, (if (s.des s.esecuzione).sigMask ≠ 0 then handlesignals s else .ok s) = .ok s' ∧
      Segnali ts ∧ (ts = [.dati, .termina p] ↔ (s.des (some p)).Muore) ∧ Run Mossa a ts b ∧
        Rappr s' b := by
  have hesec : s.esecuzione = some p := hR.esecuzione.trans he
  rw [hesec]
  by_cases hmask : (s.des (some p)).sigMask = 0
  · refine ⟨s, [], a, by rw [hmask]; rfl, Or.inl rfl, ⟨fun e => (by cases e), fun h => ?_⟩, Run.nil, hR⟩
    have hlsb := h.1
    rw [hmask] at hlsb
    exact absurd hlsb (by decide)
  · have hp : p ≠ idle := fun e => by
      subst e
      exact hmask ((hR.sigMask _).trans (hz rfl))
    rw [if_pos hmask]
    exact hR.handlesignals_eq hI he hp hmask

theorem signalsCheck_eq (hR : Rappr s a) (hI : Inv a) (he : a.esecuzione = some p)
    (hz : p = idle → (a.dati idle).sigMask = 0) :
    ∃ s' ts b, signalsCheck s = .ok s' ∧ Segnali ts ∧ Run Mossa a ts b ∧ Rappr s' b := by
  have hne : s.esecuzione ≠ none := by
    rw [hR.esecuzione, he]
    exact Option.some_ne_none p
  unfold signalsCheck
  rw [if_neg hne]
  obtain ⟨s', ts, b, heq, hts, -, hrun, hR'⟩ := hR.pendenti_eq hI he hz
  exact ⟨s', ts, b, heq, hts, hrun, hR'⟩

theorem caricaStato_eq (hR : Rappr s a) (ha : a.esecuzione ≠ none) :
    ∃ s', caricaStato s = .ok s' ∧ Rappr s' a := by
  have hne : s.esecuzione ≠ none := by
    rw [hR.esecuzione]
    exact ha
  exact ⟨_, if_neg hne, hR.congr⟩

/-- The way out of a system call. -/
theorem uscita_eq (hR : Rappr s a) (hA : Regolare a) (hM : Mossa.Muto a) :
    ∃ s' ts b, (signalsCheck s >>= fun s => caricaStato s) = .ok s' ∧ Segnali ts ∧
      Run Mossa a ts b ∧ Rappr s' b ∧ Regolare b := by
  obtain ⟨p, he⟩ := Option.ne_none_iff_exists'.mp hA.attivo
  obtain ⟨s₁, ts, b, heq₁, hts, hrun, hR₁⟩ := hR.signalsCheck_eq hA.inv he fun _ => hM.mask
  have hA₁ := hA.run hrun hts.chiude hM
  obtain ⟨s₂, heq₂, hR₂⟩ := hR₁.caricaStato_eq hA₁.attivo
  exact ⟨s₂, ts, b, by rw [heq₁]; exact heq₂, hts, hrun, hR₂, hA₁⟩

/-! ## The clock -/

theorem addebita_eq (hR : Rappr s a) (hI : Inv a) (he : a.esecuzione = some p)
    (hz : p = idle → (a.dati idle).sigMask = 0) :
    ∃ s' ts b, addebita s = .ok s' ∧ Segnali ts ∧
      (ts = [.dati, .termina p] ↔ (s.des (some p)).Muore) ∧ Run Mossa a (.conta :: ts) b ∧
        Rappr s' b := by
  have hm := Mossa.conta p he
  have hR₁ := hR.aggiorna p DesProc.contato
  have hz₁ : p = idle → ((a.aggiorna p DesProc.contato).dati idle).sigMask = 0 := by
    intro e
    subst e
    have h := hz rfl
    rw [Astratto.dati_aggiorna, Function.update_self]
    exact h
  obtain ⟨s', ts, b, heq, hts, hmuore, hrun, hR'⟩ := hR₁.pendenti_eq (hm.inv hI) he hz₁
  have hdes : (s.aggiorna (some p) DesProc.contato).des (some p) = (s.des (some p)).contato :=
    Function.update_self _ _ _
  rw [hdes] at hmuore
  refine ⟨s', ts, b, ?_, hts, hmuore, .cons hm hrun, hR'⟩
  unfold addebita
  rw [hR.esecuzione, he]
  exact heq

theorem turno_eq (hR : Rappr s a) (hU : Unico a) (he : a.esecuzione = some p) :
    ∃ s' t b, turno s = .ok s' ∧ Turno t ∧ Mossa a t b ∧ Rappr s' b := by
  have hesec : s.esecuzione = some p := hR.esecuzione.trans he
  have hp0 := hU.inCoda_esecuzione he
  unfold turno
  simp only
  rw [hR.rescheduler]
  by_cases hr : int32 (a.rescheduler + 1) > RESCHEDULER
  · have hR₁ := (hR.setRescheduler 0).aggiorna p DesProc.addebitato
    obtain ⟨s₂, heq₂, hR₂⟩ := hR₁.inserisciPronti hU.separati hp0
    have hS₂ : Separati (((a.setRescheduler 0).aggiorna p DesProc.addebitato).accoda p) :=
      hU.separati.accoda (a := (a.setRescheduler 0).aggiorna p DesProc.addebitato) hp0
    obtain ⟨s₃, heq₃, hR₃⟩ := hR₂.reschedule hS₂
    have hS₃ : Separati
        (((a.setRescheduler 0).aggiorna p DesProc.addebitato).accoda p).reschedule := fun q =>
      (Astratto.inCoda_reschedule (hU.accoda_nodup he)).trans_le (hS₂ q)
    refine ⟨_, .rischedula, _, ?_, Or.inr (Or.inr rfl), Mossa.rischedula p he hr,
      hR₃.schedulatore hS₃⟩
    have heq₂' : (({ s with rescheduler := 0 } : Kernel).aggiorna s.esecuzione fun d =>
        { d with tickTotal := int32 (d.tickTotal + d.tick) }).inserisciPronti s.esecuzione =
        .ok s₂ := by
      rw [← hesec] at heq₂
      exact heq₂
    rw [if_pos hr]
    refine (congrArg (fun x => x >>= fun s => Pitos.reschedule s >>= fun s =>
      pure (Pitos.schedulatore s)) heq₂').trans ?_
    refine (congrArg (fun x => x >>= fun s => pure (Pitos.schedulatore s)) heq₃).trans ?_
    rfl
  · rw [if_neg hr]
    have htick : (s.des s.esecuzione).tick = (a.dati p).tick := by
      rw [hesec]
      exact hR.tick p
    have hR₁ := hR.setRescheduler (int32 (a.rescheduler + 1))
    by_cases ht : (a.dati p).tick > QUANTUM
    · obtain ⟨s₂, heq₂, hR₂⟩ := hR₁.inserisciPronti hU.separati hp0
      refine ⟨_, .prelazione, _, ?_, Or.inr (Or.inl rfl),
        Mossa.prelazione p he (not_lt.mp hr) ht,
        hR₂.schedulatore (hU.separati.accoda (a := a.setRescheduler _) hp0)⟩
      rw [← hesec] at heq₂
      simp only [htick, if_pos ht, heq₂]
      rfl
    · refine ⟨_, .prosegue, _, ?_, Or.inl rfl,
        Mossa.prosegue p he (not_lt.mp hr) (not_lt.mp ht), hR₁⟩
      simp only [htick, if_neg ht]
      rfl

/-- The label of a tick: the timer, the charge, a pending signal, and whose turn it is. -/
def Tick (ts : List Atto) : Prop :=
  ∃ sig t, Segnali sig ∧ Turno t ∧ ts = .orologio :: .conta :: (sig ++ [t])

/-- The parts of a tick while `p` runs, with the states between them. -/
theorem cdriverT_parti (hR : Rappr s a) (hA : Regolare a) (hM : Mossa.Muto a)
    (he : a.esecuzione = some p) :
    ∃ s₁ s₂ s₃ sig t a₂ b, scadenze s = .ok s₁ ∧ addebita s₁ = .ok s₂ ∧ turno s₂ = .ok s₃ ∧
      Segnali sig ∧ (sig = [.dati, .termina p] ↔ (a.dati p).Muore) ∧ Turno t ∧
      Rappr s₁ a.orologio ∧ Run Mossa a.orologio (.conta :: sig) a₂ ∧ Rappr s₂ a₂ ∧
      Regolare a₂ ∧ Mossa.Muto a₂ ∧ Mossa a₂ t b ∧ Rappr s₃ b := by
  obtain ⟨s₁, heq₁, hR₁⟩ := hR.scadenze_eq hA.inv
  have hm₁ : Mossa a .orologio a.orologio := Mossa.orologio
  have hA₁ := hA.mossa hm₁ (by rintro ⟨⟩) hM
  have hM₁ := hm₁.muto hA.inv (by rintro ⟨⟩) hM
  have he₁ : a.orologio.esecuzione = some p := a.esecuzione_orologio.trans he
  obtain ⟨s₂, sig, b₂, heq₂, hsig, hmuore, hrun₂, hR₂⟩ :=
    hR₁.addebita_eq hA₁.inv he₁ fun _ => hM₁.mask
  have hchiude : .chiude ∉ Atto.conta :: sig := by
    simpa using hsig.chiude
  have hA₂ := hA₁.run hrun₂ hchiude hM₁
  have hM₂ := Mossa.muto_run hrun₂ hA₁.inv hchiude hM₁
  obtain ⟨q, he₂⟩ := Option.ne_none_iff_exists'.mp hA₂.attivo
  obtain ⟨s₃, t, b₃, heq₃, ht, hm₃, hR₃⟩ := hR₂.turno_eq hA₂.inv.unico he₂
  have hreg := hm₁.registri hA.inv (hA.inv.esecuzione_vivi he) (by rintro ⟨⟩) (by rintro ⟨⟩)
  have hd : (s₁.des (some p)).Muore ↔ (a.dati p).Muore := by
    have hg : (s₁.des (some p)).sigHandlers = (a.dati p).sigHandlers := by
      have h := congrArg DesProc.sigHandlers (hR₁.dati p)
      exact h.trans hreg.sigHandlers
    unfold DesProc.Muore
    rw [hR₁.sigMask, hreg.sigMask, hg]
  exact ⟨s₁, s₂, s₃, sig, t, b₂, b₃, heq₁, heq₂, heq₃, hsig, hmuore.trans hd, ht, hR₁, hrun₂, hR₂,
    hA₂, hM₂, hm₃, hR₃⟩

theorem cdriverT_eq (hR : Rappr s a) (hA : Regolare a) (hM : Mossa.Muto a) :
    ∃ s' ts b, cdriverT s = .ok s' ∧ Tick ts ∧ Run Mossa a ts b ∧ Rappr s' b ∧ Regolare b := by
  obtain ⟨p, he⟩ := Option.ne_none_iff_exists'.mp hA.attivo
  obtain ⟨s₁, s₂, s₃, sig, t, a₂, b, heq₁, heq₂, heq₃, hsig, -, ht, -, hrun, -, hA₂, hM₂, hm, hR₃⟩ :=
    hR.cdriverT_parti hA hM he
  refine ⟨s₃, _, b, ?_, ⟨sig, t, hsig, ht, rfl⟩, .cons .orologio (hrun.append (.single hm)), hR₃,
    hA₂.mossa hm (by rcases ht with rfl | rfl | rfl <;> rintro ⟨⟩) hM₂⟩
  unfold cdriverT
  rw [heq₁]
  show (addebita s₁ >>= fun s => turno s) = _
  rw [heq₂]
  exact heq₃

/-- A tick with a signal pending on the idle process ends the kernel or leaves it without the
idle process. -/
theorem cdriverT_idle (hR : Rappr s a) (hA : Regolare a) (hz : (a.dati idle).sigMask ≠ 0) :
    (∃ s', cdriverT s = .error (.halt s') ∧
      ∀ p, (s'.des (some p)).stato ≠ .FREE ↔ p ≠ idle ∧ p ∈ a.vivi) ∨
    ((∃ q ∈ a.vivi, q ≠ idle) ∧
      ∃ s' b, cdriverT s = .ok s' ∧ Rappr s' b ∧ Perso b) := by
  obtain ⟨s₁, heq₁, hR₁⟩ := hR.scadenze_eq hA.inv
  have hm₁ : Mossa a .orologio a.orologio := Mossa.orologio
  have hI₁ := hm₁.inv hA.inv
  have he₁ : a.orologio.esecuzione = some idle := by
    rw [Astratto.esecuzione_orologio]
    exact (hA.zitto.quit hz).1
  have hm₂ := Mossa.conta idle he₁
  have hI₂ := hm₂.inv hI₁
  have hR₂ := hR₁.aggiorna idle DesProc.contato
  have hreg := (hm₁.registri hA.inv hA.inv.idle_vivo (by rintro ⟨⟩) (by rintro ⟨⟩)).trans
    (hm₂.registri hI₁ hI₁.idle_vivo (by rintro ⟨⟩) (by rintro ⟨⟩))
  have hvivi : (a.orologio.aggiorna idle DesProc.contato).vivi = a.vivi :=
    (hm₂.vivi_eq hI₁).trans (hm₁.vivi_eq hA.inv)
  have hz₂ := hreg.sigMask ▸ hz
  have hZ₂ : Mossa.Zitto (a.orologio.aggiorna idle DesProc.contato) :=
    ⟨hreg.sigHandlers ▸ hA.zitto.gestore, fun _ => ⟨he₁, hreg.sigMask ▸ (hA.zitto.quit hz).2⟩⟩
  have hesec : s₁.esecuzione = some idle := hR₁.esecuzione.trans he₁
  have hadd : addebita s₁ = handlesignals (s₁.aggiorna (some idle) DesProc.contato) := by
    have hne := hR₂.sigMask idle ▸ hz₂
    unfold addebita
    rw [hesec]
    exact if_pos (by
      rw [show (s₁.aggiorna (some idle) _).esecuzione = some idle from hesec]
      exact hne)
  have htick : cdriverT s = addebita s₁ >>= fun s => turno s := by
    unfold cdriverT
    rw [heq₁]
    rfl
  rw [htick, hadd]
  rcases hR₂.handlesignals_idle hI₂ hZ₂ hz₂ with ⟨s', heq, hvivo⟩ |
    ⟨hpronti, s₃, b, heq, hR₃, hU, hb⟩
  · rw [hvivi] at hvivo
    exact Or.inl ⟨s', by rw [heq]; rfl, hvivo⟩
  · obtain ⟨r, hr, -⟩ := hb.altro
    obtain ⟨s', t, c, heq', ht, hm, hR'⟩ := hR₃.turno_eq hU hr
    obtain ⟨q, hq⟩ := List.exists_mem_of_ne_nil _ hpronti
    obtain ⟨hqi, hqv⟩ := hI₂.altri_pronti he₁ hq
    exact Or.inr ⟨⟨q, hvivi ▸ hqv, hqi⟩, s', c, by rw [heq]; exact heq', hR', hb.turno hm ht hU⟩

end Rappr

/-! ## The entries -/

/-- The range of `int`. -/
def Intero (x : Int) : Prop := -2 ^ 31 ≤ x ∧ x ≤ INT_MAX

/-- The arguments of type `int` are such. -/
def Interi : Chiamata → Prop
  | .activateP _ _ prec _ _ _ => Intero prec
  | .semIni valore _ _ => Intero valore
  | .semWait hsem => Intero hsem
  | .semSignal hsem => Intero hsem
  | .sysGetOsName _ len => Intero len
  | .delay n _ => Intero n
  | .signal sig _ => Intero sig
  | .raise sig => Intero sig
  | .print _ page => Intero page
  | .malloc size _ _ => Intero size
  | _ => True

/-- The entries the machine can make: system calls and exceptions come from a process other than
`dummyproc`, which makes none, and `dummyproc` returns when it finds `proc_count <= 1`. -/
def Possibile (s : Kernel) : Evento → Prop
  | .chiamata c => (∃ p, s.esecuzione = some p ∧ p ≠ idle) ∧ Interi c ∧ Fresco s.vive c
  | .eccezione => ∃ p, s.esecuzione = some p ∧ p ≠ idle
  | .ritorno => s.esecuzione = some idle ∧ s.procCount ≤ 1
  | _ => True

/-- The key that raises `SIGQUIT` is not released while the idle process runs and another
process is live. -/
def SenzaQuit (s : Kernel) : Evento → Prop
  | .tasto code => code = 0x86 → s.esecuzione = some idle →
    ∀ p, (s.des (some p)).stato ≠ .FREE → p = idle
  | _ => True

/-- The moves of an entry made in `s` while `p` runs. -/
def Traccia (s : Kernel) (p : Pid) : Evento → List Atto → Prop
  | .chiamata c, ts => ∃ t sig, Compie s p c t ∧ Segnali sig ∧ ts = t :: sig
  | .chiamataErrata, ts => ts = []
  | .tick, ts => Rappr.Tick ts
  | .tasto code, ts =>
    ts = if code = 0x86 then if p = idle then [.chiude] else [.dati] else []
  | .eccezione, ts => ts = [.termina p]
  | .ritorno, _ => False

namespace Rappr

variable {s : Kernel} {a : Astratto} {p q : Pid}

theorem passo_chiamata (hR : Rappr s a) (hA : Regolare a) (he : a.esecuzione = some p)
    (hp : p ≠ idle) {c : Chiamata} (hf : Fresco a.vive c) (hv : ¬ SegnaleVuoto a c) :
    ∃ s' ts b, passo s (.chiamata c) = .ok s' ∧ Traccia s p (.chiamata c) ts ∧ Run Mossa a ts b ∧
      Rappr s' b ∧ Regolare b := by
  obtain ⟨s₁, t, b₁, heq₁, ht, hm₁, hR₁⟩ := hR.esegui_mossa hA.inv he hp c hf hv
  have hchiude : t ≠ .chiude := by
    rintro rfl
    cases hm₁ with
    | chiude he' => exact hp (Option.some.inj (he.symm.trans he'))
  obtain ⟨s₂, sig, b₂, heq₂, hsig, hrun₂, hR₂, hA₂⟩ := hR₁.uscita_eq
    (hA.mossa hm₁ hchiude (hA.muto he hp)) (hm₁.muto hA.inv hchiude (hA.muto he hp))
  refine ⟨s₂, _, b₂, ?_, ⟨t, sig, ht, hsig, rfl⟩, .cons hm₁ hrun₂, hR₂, hA₂⟩
  simp only [passo, heq₁]
  exact heq₂

/-- A signal to a semaphore where nobody waits though `count` says so: either it goes on, or
the kernel is lost. -/
theorem passo_vuoto (hR : Rappr s a) (hA : Regolare a) (he : a.esecuzione = some p)
    (hp : p ≠ idle) {c : Chiamata} (hv : SegnaleVuoto a c) :
    (∃ s' ts b, passo s (.chiamata c) = .ok s' ∧ Traccia s p (.chiamata c) ts ∧ Run Mossa a ts b ∧
      Rappr s' b ∧ Regolare b) ∨ ∃ s', passo s (.chiamata c) = .error (.perduto s') := by
  cases c with
  | semSignal hsem =>
    obtain ⟨s₁, heq₁, ⟨hnone, -⟩ | ⟨-, i, b₁, hi, hm₁, hR₁⟩⟩ :=
      hR.kiSemSignal_vuoto hA.inv he hsem hv
    · refine Or.inr ⟨s₁, ?_⟩
      simp only [passo, esegui, heq₁]
      show (signalsCheck s₁ >>= fun s => caricaStato s) = _
      rw [show signalsCheck s₁ = .error (.perduto s₁) from if_pos hnone]
      rfl
    · obtain ⟨s₂, sig, b₂, heq₂, hsig, hrun₂, hR₂, hA₂⟩ := hR₁.uscita_eq
        (hA.mossa hm₁ (by rintro ⟨⟩) (hA.muto he hp))
        (hm₁.muto hA.inv (by rintro ⟨⟩) (hA.muto he hp))
      refine Or.inl ⟨s₂, _, b₂, ?_, ⟨.libera i, sig, ?_, hsig, rfl⟩, .cons hm₁ hrun₂, hR₂, hA₂⟩
      · simp only [passo, esegui, heq₁]
        exact heq₂
      · simp only [Compie, hi]
        exact Or.inl trivial
  | _ => exact absurd hv id

theorem passo_tick (hR : Rappr s a) (hA : Regolare a) (hM : Mossa.Muto a) :
    ∃ s' ts b, passo s .tick = .ok s' ∧ Traccia s p .tick ts ∧ Run Mossa a ts b ∧ Rappr s' b ∧
      Regolare b := by
  obtain ⟨s₁, ts, b, heq₁, hts, hrun, hR₁, hA₁⟩ := hR.cdriverT_eq hA hM
  obtain ⟨s₂, heq₂, hR₂⟩ := hR₁.caricaStato_eq hA₁.attivo
  refine ⟨s₂, ts, b, ?_, hts, hrun, hR₂, hA₁⟩
  simp only [passo, heq₁]
  exact heq₂

theorem passo_idle (hR : Rappr s a) (hA : Regolare a) (hz : (a.dati idle).sigMask ≠ 0) :
    (∃ s', passo s .tick = .error (.halt s') ∧
      ∀ p, (s'.des (some p)).stato ≠ .FREE ↔ p ≠ idle ∧ p ∈ a.vivi) ∨
    ((∃ q ∈ a.vivi, q ≠ idle) ∧ ∃ s' b, passo s .tick = .ok s' ∧ Rappr s' b ∧ Perso b) := by
  rcases hR.cdriverT_idle hA hz with ⟨s', heq, hvivo⟩ | ⟨hq, s₁, b, heq, hR₁, hb⟩
  · refine Or.inl ⟨s', ?_, hvivo⟩
    simp only [passo, heq]
    rfl
  · obtain ⟨s₂, heq₂, hR₂⟩ := hR₁.caricaStato_eq (by
      obtain ⟨r, hr, -⟩ := hb.altro
      rw [hr]
      exact Option.some_ne_none r)
    refine Or.inr ⟨hq, s₂, b, ?_, hR₂, hb⟩
    simp only [passo, heq]
    exact heq₂

theorem passo_tasto (hR : Rappr s a) (hA : Regolare a) (he : a.esecuzione = some p)
    (code : BitVec 8) :
    ∃ s' ts b, passo s (.tasto code) = .ok s' ∧ Traccia s p (.tasto code) ts ∧ Run Mossa a ts b ∧
      Rappr s' b ∧ Regolare b := by
  have hkb : ∀ x y : Int, Rappr { s with kbChanged := x, kbLast := y } a := fun _ _ => hR.congr
  have hesec : s.esecuzione = some p := hR.esecuzione.trans he
  simp only [passo, loggingKbCallback, Traccia]
  split
  · rename_i hcode
    subst hcode
    exact ⟨_, [], a, rfl, (if_neg (by decide)).symm, Run.nil, hR.congr, hA⟩
  · split
    · by_cases hp : p = idle
      · subst hp
        have hm := Mossa.chiude he
        refine ⟨_, [.chiude], _, rfl, (if_pos rfl).symm, Run.single hm, ?_, hA.chiude hm⟩
        have h := (hkb 1 code.toNat).aggiorna idle DesProc.chiuso
        rw [← hesec] at h
        exact h
      · obtain ⟨b, hm, hR'⟩ := (hkb 1 code.toNat).kiRaise_eq he hp SIGQUIT
        exact ⟨_, [.dati], b, rfl, (if_neg hp).symm, Run.single hm, hR',
          hA.mossa hm (by rintro ⟨⟩) (hA.muto he hp)⟩
    · exact ⟨_, [], a, rfl, rfl, Run.nil, hkb 1 code.toNat, hA⟩

/-- An exception ends the process that runs. -/
theorem passo_eccezione (hR : Rappr s a) (hA : Regolare a) (he : a.esecuzione = some p)
    (hp : p ≠ idle) :
    ∃ s' ts b, passo s .eccezione = .ok s' ∧ Traccia s p .eccezione ts ∧ Run Mossa a ts b ∧
      Rappr s' b ∧ Regolare b := by
  have hR₀ : Rappr s.logShow a := hR.congr
  obtain ⟨s₁, b, heq₁, hm, hR₁⟩ := hR₀.kiTerminateP_eq hA.inv he hp
  have hA₁ := hA.mossa hm (by rintro ⟨⟩) (hA.muto he hp)
  obtain ⟨s₂, heq₂, hR₂⟩ := hR₁.caricaStato_eq hA₁.attivo
  have hne : s.logShow.esecuzione ≠ none := by
    rw [hR₀.esecuzione, he]
    exact Option.some_ne_none p
  refine ⟨s₂, _, b, ?_, rfl, Run.single hm, hR₂, hA₁⟩
  simp only [passo, handlerNoCode, if_neg hne, heq₁]
  exact heq₂

/-- `dummyproc` returns when it is alone, and the kernel halts. -/
theorem passo_ritorno (hR : Rappr s a) (hI : Inv a) (hp : Possibile s .ritorno) :
    ∃ s', passo s .ritorno = .error (.halt s') ∧ ∀ p, (s'.des (some p)).stato = .FREE := by
  obtain ⟨hesec, hcount⟩ := hp
  have he : a.esecuzione = some idle := hR.esecuzione.symm.trans hesec
  have hcard : a.vivi.card ≤ 1 := by
    have h := hI.conta
    rw [← hR.procCount] at h
    omega
  have hsolo : ∀ p ∈ a.vivi, p = idle := fun p hp =>
    Finset.card_le_one.mp hcard p hp idle (hI.esecuzione_vivi he)
  obtain ⟨s', heq, hvivo⟩ := hR.kiTerminateP_idle he <|
    List.eq_nil_iff_forall_not_mem.mpr fun q hq => by
      obtain ⟨hqi, hqv⟩ := hI.altri_pronti he hq
      exact hqi (hsolo q hqv)
  refine ⟨s', ?_, fun p => ?_⟩
  · simp only [passo, heq]
    rfl
  · by_contra hne
    obtain ⟨hpi, hpv⟩ := (hvivo p).mp hne
    exact hpi (hsolo p hpv)

/-- How an entry goes when it is not a sequence of moves. -/
inductive Finisce (s : Kernel) (a : Astratto) : Evento → Esito Kernel → Prop
  /-- `dummyproc` returns. -/
  | ritorno (s' : Kernel) (hfree : ∀ p, (s'.des (some p)).stato = .FREE) :
      Finisce s a .ritorno (.error (.halt s'))
  /-- The idle process is killed, and nobody is ready. -/
  | halt (s' : Kernel) (hmask : (a.dati idle).sigMask ≠ 0)
      (hvivo : ∀ p, (s'.des (some p)).stato ≠ .FREE ↔ p ≠ idle ∧ p ∈ a.vivi) :
      Finisce s a .tick (.error (.halt s'))
  /-- The idle process is killed, and others are ready. -/
  | perso (s' : Kernel) (b : Astratto) (hmask : (a.dati idle).sigMask ≠ 0)
      (hq : ∃ q ∈ a.vivi, q ≠ idle) (hR : Rappr s' b) (hb : Perso b) : Finisce s a .tick (.ok s')
  /-- A signal to a semaphore where nobody waits though `count` says so. -/
  | perduto (c : Chiamata) (s' : Kernel) (hv : SegnaleVuoto a c) :
      Finisce s a (.chiamata c) (.error (.perduto s'))

/-- **An entry of the kernel.** It comes back in a state that represents the end of its moves,
or it is one of the few that end the kernel or the order of its places. -/
theorem passo_mosse (hR : Rappr s a) (hA : Regolare a) (he : a.esecuzione = some p) {e : Evento}
    (hposs : Possibile s e) :
    (∃ s' ts b, passo s e = .ok s' ∧ Traccia s p e ts ∧ Run Mossa a ts b ∧ Rappr s' b ∧
      Regolare b) ∨ Finisce s a e (passo s e) := by
  cases e with
  | chiamata c =>
    obtain ⟨⟨q, hesec, hq⟩, -, hf⟩ := hposs
    have hqp : q = p := Option.some.inj (hesec.symm.trans (hR.esecuzione.trans he))
    subst hqp
    rw [hR.vive] at hf
    by_cases hv : SegnaleVuoto a c
    · rcases hR.passo_vuoto hA he hq hv with h | ⟨s', h⟩
      · exact Or.inl h
      · exact Or.inr (h ▸ .perduto c s' hv)
    · exact Or.inl (hR.passo_chiamata hA he hq hf hv)
  | chiamataErrata =>
    exact Or.inl ⟨_, [], a, rfl, rfl, Run.nil, hR.congr, hA⟩
  | tick =>
    by_cases hz : (a.dati idle).sigMask = 0
    · exact Or.inl (hR.passo_tick hA (hA.zitto.muto hz))
    · rcases hR.passo_idle hA hz with ⟨s', heq, hvivo⟩ | ⟨hq, s', b, heq, hR', hb⟩
      · exact Or.inr (heq ▸ .halt s' hz hvivo)
      · exact Or.inr (heq ▸ .perso s' b hz hq hR' hb)
  | tasto code => exact Or.inl (hR.passo_tasto hA he code)
  | eccezione =>
    obtain ⟨q, hesec, hq⟩ := hposs
    obtain rfl := Option.some.inj (hesec.symm.trans (hR.esecuzione.trans he))
    exact Or.inl (hR.passo_eccezione hA he hq)
  | ritorno =>
    obtain ⟨s', heq, hfree⟩ := hR.passo_ritorno hA.inv hposs
    exact Or.inr (heq ▸ .ritorno s' hfree)

end Rappr

end Pitos
