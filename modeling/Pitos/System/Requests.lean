import Pitos.Properties.Alarms
import Pitos.System.Machine

/-!
# The records of the sleeping processes

An entry touches the list of live requests in two cases only: `ki_delay` adds the record that
`new` returned, and a tick takes off those that its loop deletes (`passo_vive`). In a state that
the kernel reaches these are live records, and no two are the same (`scaduti_vivi`).
-/

namespace Pitos

open Lib

variable {s t : Kernel} {a : Astratto}

/-! ## One tick -/

theorem Kernel.scaduti_congr (ht : t.desTimer = s.desTimer) (hr : t.ric = s.ric) (n : Nat) :
    Kernel.scaduti n t = Kernel.scaduti n s := by
  induction n generalizing s t with
  | zero => rfl
  | succ n ih =>
    unfold Kernel.scaduti
    rw [ht, hr]
    cases s.desTimer with
    | none => rfl
    | some p =>
      simp only
      rw [ih (s := { s with desTimer := (s.ric p).pric })
        (t := { t with desTimer := (s.ric p).pric, ric := s.ric }) rfl rfl]

/-- The loop deletes what it takes off. -/
theorem svuotaTimer_vive {n : Nat} (h : svuotaTimer n s = .ok t) :
    t.vive = s.vive.diff (s.scaduti n) := by
  induction n generalizing s with
  | zero => cases h
  | succ n ih =>
    unfold svuotaTimer at h
    unfold Kernel.scaduti
    cases hp : s.desTimer with
    | none =>
      simp only [hp] at h
      obtain rfl := Except.ok.inj h
      rfl
    | some p =>
      simp only [hp] at h
      by_cases hz : (s.ric p).dattesa = 0
      · simp only [hz, if_true] at h ⊢
        obtain ⟨s₁, h₁, h₂⟩ := bind_ok h
        obtain ⟨htimer, hric, hvive⟩ := StessaCoda.inserisciPronti h₁
        have hrest := ih h₂
        have hsame : Kernel.scaduti n { s₁ with vive := s₁.vive.erase p } =
            Kernel.scaduti n { s with desTimer := (s.ric p).pric } :=
          Kernel.scaduti_congr (t := { s₁ with vive := s₁.vive.erase p })
            (s := { s with desTimer := (s.ric p).pric }) htimer hric n
        have hlive : s₁.vive = s.vive := hvive
        rw [hrest, hsame, hlive, List.diff_cons]
      · simp only [hz, if_false] at h ⊢
        obtain rfl := Except.ok.inj h
        rfl

theorem scadenze_vive (h : scadenze s = .ok t) :
    t.vive = s.vive.diff (s.scala.scaduti (s.vive.length + 1)) := by
  unfold scadenze at h
  unfold Kernel.scala
  cases hp : s.desTimer with
  | none =>
    simp only [hp] at h
    exact svuotaTimer_vive h
  | some p =>
    simp only [hp] at h
    exact svuotaTimer_vive h

/-! ## The calls -/

namespace StessaCoda

theorem caricaStato (h : caricaStato s = .ok t) : StessaCoda s t := by
  obtain ⟨_, rfl⟩ := caricaStato_ok h
  exact ⟨rfl, rfl, rfl⟩

/-- The way out of a call. -/
theorem uscita (h : (signalsCheck s >>= fun s => Pitos.caricaStato s) = .ok t) :
    StessaCoda s t := by
  obtain ⟨s₁, h₁, h₂⟩ := bind_ok h
  refine trans ?_ (caricaStato h₂)
  have hsig := (signalsCheck_ok h₁).2
  split at hsig
  · exact handlesignals hsig
  · obtain rfl := Except.ok.inj hsig
    exact refl s

theorem inserisciSem {i : Fin MAXSEMS} {p : DesPtr} (h : s.inserisciSem i p = .ok t) :
    StessaCoda s t := by
  unfold Kernel.inserisciSem at h
  split at h
  · cases h
  · obtain rfl := Except.ok.inj h
    exact ⟨rfl, rfl, rfl⟩

theorem kiSemWait {hsem : Int} (h : kiSemWait hsem s = .ok t) : StessaCoda s t := by
  unfold Pitos.kiSemWait at h
  split at h
  · obtain rfl := Except.ok.inj h
    exact refl s
  · simp only at h
    split at h
    · obtain ⟨s₁, h₁, h₂⟩ := bind_ok h
      obtain rfl := Except.ok.inj h₂
      exact (inserisciSem h₁ : StessaCoda (s.setCount _ _) s₁).trans (schedulatore s₁)
    · obtain rfl := Except.ok.inj h
      exact ⟨rfl, rfl, rfl⟩

theorem kiSemSignal {hsem : Int} (h : kiSemSignal hsem s = .ok t) : StessaCoda s t := by
  unfold Pitos.kiSemSignal at h
  split at h
  · obtain rfl := Except.ok.inj h
    exact refl s
  · simp only at h
    split at h
    · split at h
      · obtain ⟨s₁, h₁, h₂⟩ := bind_ok h
        obtain rfl := Except.ok.inj h₂
        obtain ⟨htimer, hric, hvive⟩ := inserisciPronti h₁
        exact ⟨htimer, hric, hvive⟩
      · obtain ⟨htimer, hric, hvive⟩ := inserisciPronti h
        exact ⟨htimer, hric, hvive⟩
    · obtain rfl := Except.ok.inj h
      exact ⟨rfl, rfl, rfl⟩

theorem kiActivatePLevel {f k : Word} {prec level : Int} {idx risu : Word} {stk : Fin 3 → Word}
    (h : kiActivatePLevel f k prec level idx risu stk s = .ok t) : StessaCoda s t := by
  unfold Pitos.kiActivatePLevel at h
  simp only at h
  split at h
  · obtain rfl := Except.ok.inj h
    exact ⟨rfl, rfl, rfl⟩
  · obtain ⟨s₁, h₁, h₂⟩ := bind_ok h
    obtain rfl := Except.ok.inj h₂
    obtain ⟨htimer, hric, hvive⟩ := inserisciPronti h₁
    refine ⟨htimer.trans ?_, hric.trans ?_, hvive.trans ?_⟩ <;>
      · simp only [Kernel.prepara, Kernel.aggiorna]
        split <;> rfl

theorem avvia {v : Avvio} (h : avvia s v = .ok t) : StessaCoda s t := by
  cases v with
  | attiva f k prec level idx risu stk => exact kiActivatePLevel h
  | semIni valore idx risu =>
    obtain rfl := Except.ok.inj h
    unfold kiSemIni
    split <;> exact ⟨rfl, rfl, rfl⟩

theorem kernelGo (h : kernelGo s = .ok t) : StessaCoda s t := by
  obtain ⟨s₁, rfl | rfl, h₁⟩ := kernelGo_ok h
  · exact caricaStato h₁
  · exact (schedulatore s).trans (caricaStato h₁)

end StessaCoda

theorem attendi_vive {d : Int} {z : Addr} (h : attendi d z s = .ok t) :
    t.vive = z :: s.vive := by
  obtain ⟨s₁, h₁, h₂⟩ := bind_ok h
  obtain rfl := Except.ok.inj h₂
  rw [(StessaCoda.schedulatore s₁).2.2]
  unfold inserimentoCodaTimer at h₁
  split at h₁
  · cases h₁
  · simp only at h₁
    split at h₁ <;> split at h₁ <;> obtain rfl := Except.ok.inj h₁ <;> rfl

/-- The live requests after an entry. -/
def Kernel.viveDopo (s : Kernel) : Evento → List Addr
  | .chiamata (.delay _ z) => z :: s.vive
  | .tick => s.vive.diff (s.scala.scaduti (s.vive.length + 1))
  | _ => s.vive

/-- The calls that are not a delay leave the timer queue alone. -/
theorem esegui_coda {c : Chiamata} (h : esegui c s = .ok t) :
    t.vive = s.viveDopo (.chiamata c) := by
  cases c with
  | activateP f k prec idx risu stk => exact (StessaCoda.kiActivatePLevel h).2.2
  | terminateP => exact (StessaCoda.kiTerminateP h).2.2
  | semIni valore idx risu => exact (StessaCoda.avvia (v := .semIni valore idx risu) h).2.2
  | semWait hsem => exact (StessaCoda.kiSemWait h).2.2
  | semSignal hsem => exact (StessaCoda.kiSemSignal h).2.2
  | delay n z => exact attendi_vive h
  | signal sig func =>
    obtain rfl := Except.ok.inj h
    unfold kiSignal
    split <;> rfl
  | raise sig =>
    obtain rfl := Except.ok.inj h
    unfold kiRaise
    split <;> rfl
  | sysGetOsName q len =>
    obtain rfl := Except.ok.inj h
    unfold kiSysGetOsName
    split <;> rfl
  | _ =>
    obtain rfl := Except.ok.inj h
    rfl

theorem passo_vive {e : Evento} (h : passo s e = .ok t) : t.vive = s.viveDopo e := by
  cases e with
  | chiamata c =>
    obtain ⟨s₁, h₁, h₂⟩ := bind_ok h
    exact (StessaCoda.uscita h₂).2.2.trans (esegui_coda h₁)
  | chiamataErrata =>
    obtain rfl := Except.ok.inj h
    rfl
  | tick =>
    obtain ⟨s₁, h₁, h₂⟩ := bind_ok h
    obtain ⟨s₂, h₃, hq⟩ := StessaCoda.cdriverT h₁
    exact ((StessaCoda.caricaStato h₂).2.2.trans hq.2.2).trans (scadenze_vive h₃)
  | tasto code =>
    obtain rfl := Except.ok.inj h
    unfold loggingKbCallback
    simp only
    split
    · rfl
    · split
      · unfold kiRaise
        split <;> rfl
      · rfl
  | eccezione =>
    simp only [passo, handlerNoCode] at h
    split at h
    · cases h
    · obtain ⟨s₁, h₁, h₂⟩ := bind_ok h
      exact ((StessaCoda.kiTerminateP h₁).trans (StessaCoda.caricaStato h₂)).2.2
  | ritorno =>
    obtain ⟨s₁, h₁, h₂⟩ := bind_ok h
    cases h₂

/-! ## What is deleted -/

/-- What the loop takes off are the first records of the queue. -/
theorem Kernel.scaduti_coda {l : List Addr} (h : Linked s.pric s.desTimer l) (n : Nat) :
    s.scaduti n <+: l := by
  induction n generalizing s l with
  | zero => exact List.nil_prefix
  | succ n ih =>
    unfold Kernel.scaduti
    cases hp : s.desTimer with
    | none => exact List.nil_prefix
    | some p =>
      simp only
      split
      · rw [hp] at h
        cases h with
        | cons hrest =>
          exact List.cons_prefix_cons.mpr
            ⟨rfl, ih (s := { s with desTimer := (s.ric p).pric }) hrest⟩
      · exact List.nil_prefix

/-- The records a tick deletes are live and different from each other. -/
theorem scaduti_vivi (hR : Rappr s a) (hI : Inv a) (n : Nat) :
    (s.scala.scaduti n).Nodup ∧ ∀ z ∈ s.scala.scaduti n, z ∈ s.vive := by
  have hlink : Linked s.scala.pric s.scala.desTimer (a.sonno.map fun r => r.1.1) := by
    have ht := hR.timer
    unfold Kernel.scala
    cases hp : s.desTimer with
    | none =>
      simp only
      exact ht
    | some p =>
      simp only
      have hpric : (s.aggiornaRic p fun q => { q with dattesa := int32 (q.dattesa - 1) }).pric =
          s.pric := by
        funext z
        by_cases hz : z = p
        · subst hz
          simp [Kernel.pric, Kernel.aggiornaRic]
        · simp [Kernel.pric, Kernel.aggiornaRic, hz]
      rw [hpric]
      exact ht
  have hpre := Kernel.scaduti_coda hlink n
  refine ⟨hI.indirizzi.sublist hpre.sublist, fun z hz => ?_⟩
  rw [hR.vive]
  exact hI.heap.mem_iff.mpr (hpre.subset hz)

end Pitos
