import Pitos.Refinement.Execution

/-!
# The CPU always has somewhere to go

`schedulatore` does nothing on an empty `pronti`, so a process that blocks leaves the CPU only
because the idle process is always ready. `idle_disponibile` says that it is, in every state
reached by entries none of which is the release of the key `SIGQUIT` while the idle process
runs and another process is live (`SenzaQuit`). From each of these states such a key leads to
one in which it is not: the signal of the keyboard goes to whatever process is current, and
the default action of `SIGQUIT` ends it at the next tick (`idle_ucciso` is a run).
-/

namespace Pitos

open Lib

theorem Mossa.blocca_esecuzione {a b : Astratto} {i : Fin MAXSEMS} {p : Pid}
    (h : Mossa a (.blocca i p) b) (hI : Inv a) : b.esecuzione ≠ some p := by
  cases h with
  | blocca _ _ he hp hc => exact hI.schedulatore_ne he hp rfl

theorem Mossa.dorme_esecuzione {a b : Astratto} {d : Int} {x : Addr × Pid}
    (h : Mossa a (.dorme d x) b) (hI : Inv a) : b.esecuzione ≠ some x.2 := by
  cases h with
  | dorme _ _ he hp hx => exact hI.schedulatore_ne he hp rfl

/-! ## Runs without the key -/

/-- A signal is pending on the idle process only when it is alone. -/
def Solo (a : Astratto) : Prop :=
  (a.dati idle).sigMask ≠ 0 → ∀ p ∈ a.vivi, p = idle

theorem Mossa.Muto.solo {a : Astratto} (h : Muto a) : Solo a := fun hmask => absurd h.mask hmask

theorem Rappr.Tick.chiude {ts : List Atto} (h : Rappr.Tick ts) : .chiude ∉ ts := by
  obtain ⟨sig, t, hsig, ht, rfl⟩ := h
  intro hmem
  simp only [List.mem_cons, List.mem_append, List.not_mem_nil, or_false, reduceCtorEq,
    false_or] at hmem
  rcases hmem with hmem | rfl
  · exact hsig.chiude hmem
  · rcases ht with ht | ht | ht <;> cases ht

/-- While the key is not released at the wrong time the idle process lives. -/
theorem Rappr.senzaQuit {s t : Kernel} {a : Astratto} {e : Evento} (hR : Rappr s a)
    (hA : Regolare a) (hS : Solo a) (hposs : Possibile s e) (hq : SenzaQuit s e)
    (heq : passo s e = .ok t) : t.Vivo idle ∧ ∃ b, Rappr t b ∧ Regolare b ∧ Solo b := by
  obtain ⟨p, he⟩ := Option.ne_none_iff_exists'.mp hA.attivo
  rcases hR.passo_mosse hA he hposs with ⟨t', ts, b, heq', hts, hrun, hR', hA'⟩ | hf
  · obtain rfl := Except.ok.inj (heq'.symm.trans heq)
    refine ⟨hR'.vivo_iff.mpr hA'.inv.idle_vivo, b, hR', hA', ?_⟩
    cases e with
    | chiamata c =>
      obtain ⟨⟨q, hesec, hqi⟩, -, -⟩ := hposs
      have hM := hA.muto (hR.esecuzione.symm.trans hesec) hqi
      obtain ⟨u, sig, hu, hsig, rfl⟩ := hts
      refine (Mossa.muto_run hrun hA.inv (fun hmem => ?_) hM).solo
      rcases List.mem_cons.mp hmem with e | hmem
      · exact hu.diChiamata.1 e.symm
      · exact hsig.chiude hmem
    | chiamataErrata =>
      obtain rfl := show ts = [] from hts
      cases hrun
      exact hS
    | tick =>
      by_cases hmask : (a.dati idle).sigMask = 0
      · exact (Mossa.muto_run hrun hA.inv (Rappr.Tick.chiude hts) (hA.zitto.muto hmask)).solo
      · rcases hR.passo_idle hA hmask with ⟨u, hu, -⟩ | ⟨⟨q, hqv, hqi⟩, -⟩
        · cases hu.symm.trans heq
        · exact absurd (hS hmask q hqv) hqi
    | tasto code =>
      rw [show ts = _ from hts] at hrun
      split at hrun
      · rename_i hcode
        split at hrun
        · rename_i hp
          have hsolo := hq hcode (hR.esecuzione.trans (hp ▸ he))
          cases hrun with
          | cons hm hnil =>
            cases hnil
            intro _ r hr
            rw [hm.vivi_eq hA.inv] at hr
            exact hsolo r (hR.vivo_iff.mpr hr)
        · rename_i hp
          exact (Mossa.muto_run hrun hA.inv (by simp) (hA.muto he hp)).solo
      · cases hrun
        exact hS
    | eccezione =>
      obtain ⟨q, hesec, hqi⟩ := hposs
      have hM := hA.muto (hR.esecuzione.symm.trans hesec) hqi
      rw [show ts = [.termina p] from hts] at hrun
      exact (Mossa.muto_run hrun hA.inv (by simp) hM).solo
    | ritorno => exact absurd hts id
  · rw [heq] at hf
    cases hf with
    | perso _ b hmask hq' hR' hb =>
      obtain ⟨q, hqv, hqi⟩ := hq'
      exact absurd (hS hmask q hqv) hqi

/-- Such a run is one in which the idle process lives. -/
theorem Sistema.Raggiunge.idle_vivo {B : Avvio → Prop} {G : Sistema → Evento → Prop}
    {es : List Evento} {x : Sistema} (h : Sistema.Raggiunge B G es x)
    (hG : ∀ x e, G x e → SenzaQuit x.kernel e) :
    Sistema.Raggiunge B (fun x e => G x e ∧ IdleVivo x.kernel e) es x := by
  obtain ⟨x₀, hx₀, hrun⟩ := h
  obtain ⟨a, hR, hA, hM, -⟩ := hx₀.kernel.segue (J := fun _ => True) (fun _ _ => trivial)
    fun _ _ _ _ _ _ _ => trivial
  refine ⟨x₀, hx₀, hrun.strengthen (I := fun x => ∃ a, Rappr x.kernel a ∧ Regolare a ∧ Solo a)
    (fun x e y ⟨a, hR, hA, hS⟩ hp => ?_) ⟨a, hR, hA, hM.solo⟩⟩
  obtain ⟨hposs, hg, heq, hst⟩ := hp
  obtain ⟨hv, hb⟩ := hR.senzaQuit hA hS hposs (hG _ _ hg) heq
  exact ⟨⟨hposs, ⟨hg, fun t ht => Except.ok.inj (heq.symm.trans ht) ▸ hv⟩, heq, hst⟩, hb⟩

theorem Raggiunge.senzaQuit {es : List Evento} {s : Kernel} (h : Raggiunge SenzaQuit es s) :
    ∃ a, Rappr s a ∧ Regolare a ∧ Solo a := by
  obtain ⟨s₀, hs₀, hrun⟩ := h
  obtain ⟨a, hR, hA, hM, -⟩ := hs₀.segue (J := fun _ => True) (fun _ _ => trivial)
    fun _ _ _ _ _ _ _ => trivial
  exact hrun.invariant (I := fun s => ∃ a, Rappr s a ∧ Regolare a ∧ Solo a)
    (fun s e t ⟨a, hR, hA, hS⟩ ⟨hposs, hq, heq⟩ => (hR.senzaQuit hA hS hposs hq heq).2)
    ⟨a, hR, hA, hM.solo⟩

/-! ## The property -/

/-- The idle process has the CPU or is ready if another process is live; a wait that blocks and
a delay take the CPU from their caller; and the kernel halts only with nobody live. -/
structure Disponibile (s : Kernel) : Prop where
  idle : (∃ p, p ≠ idle ∧ s.Vivo p) → s.esecuzione = some idle ∨ s.InPronti idle
  semWait : ∀ p, s.esecuzione = some p → p ≠ Pitos.idle → ∀ hsem i, maniglia hsem = some i →
    int32 ((s.dessem i).count - 1) < 0 →
      ∃ s' q, kiSemWait hsem s = .ok s' ∧ s'.esecuzione = some q ∧ q ≠ p
  delay : ∀ p, s.esecuzione = some p → p ≠ Pitos.idle → ∀ n z, z ∉ s.vive →
    ∃ s' q, kiDelay n z s = .ok s' ∧ s'.esecuzione = some q ∧ q ≠ p

theorem Rappr.disponibile {s : Kernel} {a : Astratto} (hR : Rappr s a) (hA : Regolare a) :
    Disponibile s := by
  refine ⟨fun _ => ?_, fun p hesec hp hsem i hm hc => ?_, fun p hesec hp n z hz => ?_⟩
  · rw [hR.esecuzione, hR.inPronti_iff]
    exact hA.inv.idle
  · have he : a.esecuzione = some p := hR.esecuzione.symm.trans hesec
    obtain ⟨s', t, b, heq, ht, hmossa, hR'⟩ := hR.kiSemWait_eq hA.inv he hp hsem
    rw [hR.count] at hc
    obtain ⟨q, hb⟩ := Option.ne_none_iff_exists'.mp (hmossa.attivo hA.inv hA.attivo)
    refine ⟨s', q, heq, hR'.esecuzione.trans hb, fun e => ?_⟩
    simp only [Compie, hm] at ht
    rcases ht with rfl | rfl
    · cases hmossa with
      | passa _ hc' => omega
    · exact hmossa.blocca_esecuzione hA.inv (e ▸ hb)
  · have he : a.esecuzione = some p := hR.esecuzione.symm.trans hesec
    rw [hR.vive] at hz
    obtain ⟨s', heq, hR'⟩ := hR.attendi_eq hA.inv he hz (d := n.tdiv 50)
    have hmossa := Mossa.dorme (n.tdiv 50) (z, p) he hp hz
    obtain ⟨q, hb⟩ := Option.ne_none_iff_exists'.mp (hmossa.attivo hA.inv hA.attivo)
    refine ⟨s', q, heq, hR'.esecuzione.trans hb, fun e => ?_⟩
    exact hmossa.dorme_esecuzione hA.inv (e ▸ hb)

/-- What the key does when it is released while the idle process runs and another is live: the
next tick halts the kernel though a process is live, or leaves a live process and no idle one. -/
def Uccide (s : Kernel) (e : Evento) : Prop :=
  ∃ s', passo s e = .ok s' ∧
    ((∃ t p, passo s' .tick = .error (.halt t) ∧ t.Vivo p) ∨
      ∃ t p, passo s' .tick = .ok t ∧ p ≠ idle ∧ t.Vivo p ∧ t.esecuzione ≠ some idle ∧
        ¬ t.InPronti idle)

theorem Rappr.uccide {s : Kernel} {a : Astratto} {e : Evento} (hR : Rappr s a) (hA : Regolare a)
    (hq : ¬ SenzaQuit s e) : Uccide s e := by
  cases e with
  | tasto code =>
    simp only [SenzaQuit, not_forall] at hq
    obtain ⟨rfl, hesec, p, hp, hpi⟩ := hq
    have he : a.esecuzione = some idle := hR.esecuzione.symm.trans hesec
    obtain ⟨s', ts, b, heq, hts, hrun, hR', hA'⟩ := hR.passo_tasto hA he 0x86
    obtain rfl := show ts = [.chiude] from hts
    refine ⟨s', heq, ?_⟩
    cases hrun with
    | cons hm hnil =>
      cases hnil
      have hpv : p ∈ b.vivi := hm.vivi_eq hA.inv ▸ hR.vivo_iff.mp hp
      have hmask : (b.dati idle).sigMask ≠ 0 := by
        cases hm with
        | chiude _ =>
          rw [Astratto.dati_aggiorna, Function.update_self]
          intro h0
          have h3 := congrArg (fun m : Word => m.getLsbD 3) h0
          simp [DesProc.chiuso] at h3
      rcases hR'.passo_idle hA' hmask with ⟨t, ht, hvivo⟩ | ⟨-, t, c, ht, hRc, hc⟩
      · exact Or.inl ⟨t, p, ht, (hvivo p).mpr ⟨hpi, hpv⟩⟩
      · obtain ⟨r, hr, hrv⟩ := hc.altro
        have hri : r ≠ idle := fun e => Astratto.mem_vivi.mp (e ▸ hrv) hc.libero
        refine Or.inr ⟨t, r, ht, hri, hRc.vivo_iff.mpr hrv, ?_, ?_⟩
        · rw [hRc.esecuzione, hr]
          exact fun e => hri (Option.some.inj e)
        · rw [hRc.inPronti_iff]
          intro hmem
          have h1 := Astratto.presenze_pos_of_pronti hmem
          have h2 := hc.assente
          unfold Astratto.presenze at h2
          omega
  | _ => exact absurd trivial hq

theorem idle_disponibile (es : List Evento) (s : Kernel) (h : Raggiunge SenzaQuit es s) :
    Disponibile s ∧ (∀ e s', Possibile s e → SenzaQuit s e → passo s e = .error (.halt s') →
      ∀ p, ¬ s'.Vivo p) ∧ ∀ e, ¬ SenzaQuit s e → Uccide s e := by
  obtain ⟨a, hR, hA, hS⟩ := h.senzaQuit
  refine ⟨hR.disponibile hA, fun e s' hposs hq heq p hv => ?_, fun e => hR.uccide hA⟩
  obtain ⟨q, he⟩ := Option.ne_none_iff_exists'.mp hA.attivo
  rcases hR.passo_mosse hA he hposs with ⟨t, -, -, heq', -⟩ | hf
  · cases heq'.symm.trans heq
  · rw [heq] at hf
    cases hf with
    | ritorno _ hfree => exact hv (hfree p)
    | halt _ hmask hvivo =>
      obtain ⟨hpi, hpv⟩ := (hvivo p).mp hv
      exact hpi (hS hmask p hpv)

/-- The idle process is ready while the process activated by `cmain` runs and releases some
other key. -/
theorem idle_disponibile_corsa :
    ∃ s, Raggiunge SenzaQuit [.tasto 0x1, .tick] s ∧
      (s.esecuzione = some idle ∨ s.InPronti idle) := by
  obtain ⟨x, hx, hP⟩ := Sistema.prova_raggiunge (B := fun _ => True)
    (G := fun x e => SenzaQuit x.kernel e)
    [.attiva 0x7000 0 10 3 0x5010 0x5014 (pila 0x20000)] [.tasto 0x1, .tick]
    (fun x => x.kernel.Vivo 1) (by decide +kernel)
  have hs := hx.kernel (H := SenzaQuit) fun _ _ h => h
  exact ⟨x.kernel, hs, (idle_disponibile _ _ hs).1.idle ⟨1, by decide, by simpa using hP⟩⟩

/-- A process sleeps until the next tick and the key is released while the idle process runs.
At the tick the sleeper becomes ready, the idle process is killed, and the sleeper runs with
nothing behind it. -/
theorem idle_ucciso :
    ∃ s, Raggiunge (fun _ _ => True)
        [.chiamata (.delay 50 1), .tasto 0x86, .tick] s ∧
      (∃ p, p ≠ idle ∧ s.Vivo p) ∧ s.esecuzione ≠ some idle ∧ ¬ s.InPronti idle := by
  obtain ⟨x, hx, hP⟩ := Sistema.prova_raggiunge (B := fun _ => True) (G := fun _ _ => True)
    [.attiva 0x7000 0 10 3 0x5010 0x5014 (pila 0x20000)]
    [.chiamata (.delay 50 1), .tasto 0x86, .tick]
    (fun x => x.kernel.esecuzione = some 1 ∧ x.kernel.pronti = none ∧ x.kernel.Vivo 1)
    (by decide +kernel)
  simp only [decide_eq_true_eq] at hP
  obtain ⟨he, hpronti, hv⟩ := hP
  refine ⟨x.kernel, hx.kernel fun _ _ h => h, ⟨1, by decide, hv⟩, by rw [he]; decide, ?_⟩
  rintro ⟨l, hl, hmem⟩
  rw [hpronti] at hl
  rw [Linked.none_iff.mp hl] at hmem
  cases hmem

end Pitos
