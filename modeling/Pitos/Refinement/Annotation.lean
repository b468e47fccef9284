import Pitos.Refinement.Execution

/-!
# Runs with a record

Some properties are about what happened along a run and not only about the state it leads to:
which memory was handed out, how much was charged to a process. An `Annotazione` says what is
recorded at the start, at a call by `cmain` and at an entry; `Annotazione.Raggiunge` are the
runs of the kernel with the record beside the state. `Annotazione.Raggiunge.segue` is the
induction over them, and `Annotazione.prova` evaluates one.
-/

namespace Pitos

open Lib

structure Annotazione (H : Type) where
  /-- The record after `kernel_init`, given the stacks of `dummyproc`. -/
  inizio : (Fin 3 → Word) → H
  avvio : Kernel → Avvio → Kernel → H → H
  evento : Kernel → Evento → Kernel → H → H

namespace Annotazione

variable {H : Type} {A : Annotazione H} {G : Kernel → Evento → Prop} {es : List Evento}
  {x y : Kernel × H}

def Avvia (A : Annotazione H) (x : Kernel × H) (v : Avvio) (y : Kernel × H) : Prop :=
  avvia x.1 v = .ok y.1 ∧ y.2 = A.avvio x.1 v y.1 x.2

def Passo (A : Annotazione H) (G : Kernel → Evento → Prop) (x : Kernel × H) (e : Evento)
    (y : Kernel × H) : Prop :=
  Avanza G x.1 e y.1 ∧ y.2 = A.evento x.1 e y.1 x.2

/-- The system when the first process gets the CPU. -/
def Avviato (A : Annotazione H) (x : Kernel × H) : Prop :=
  ∃ s₀ dummy risu stk s₁ avvii x₂, Caricato s₀ ∧ kernelInit dummy risu stk s₀ = .ok s₁ ∧
    Run A.Avvia (s₁, A.inizio stk) avvii x₂ ∧ kernelGo x₂.1 = .ok x.1 ∧ x.2 = x₂.2

def Raggiunge (A : Annotazione H) (G : Kernel → Evento → Prop) (es : List Evento)
    (x : Kernel × H) : Prop :=
  ∃ x₀, A.Avviato x₀ ∧ Run (A.Passo G) x₀ es x

theorem Avviato.kernel (h : A.Avviato x) : Pitos.Avviato x.1 := by
  obtain ⟨s₀, dummy, risu, stk, s₁, avvii, x₂, hcar, hinit, hrun, hgo, -⟩ := h
  exact ⟨s₀, dummy, risu, stk, s₁, avvii, x₂.1, hcar, hinit,
    hrun.map (f := Prod.fst) fun _ _ _ hv => hv.1, hgo⟩

/-- Without the record a run is a run of the kernel. -/
theorem Raggiunge.kernel (h : A.Raggiunge G es x) : Pitos.Raggiunge G es x.1 := by
  obtain ⟨x₀, hx₀, hrun⟩ := h
  exact ⟨x₀.1, hx₀.kernel, hrun.map (f := Prod.fst) fun _ _ _ hp => hp.1⟩

theorem Raggiunge.mono {G' : Kernel → Evento → Prop} (h : A.Raggiunge G es x)
    (hG : ∀ s e, G s e → G' s e) : A.Raggiunge G' es x := by
  obtain ⟨x₀, hx₀, hrun⟩ := h
  refine ⟨x₀, hx₀, hrun.mono fun x e y hp => ?_⟩
  exact ⟨⟨hp.1.1, hG _ _ hp.1.2.1, hp.1.2.2⟩, hp.2⟩

/-- What holds at the start and is kept by all calls of `cmain` and all entries holds in every
system that is reached. -/
theorem Raggiunge.segue {J : Kernel → Astratto → H → Prop} (h : A.Raggiunge G es x)
    (hG : ∀ s e, G s e → IdleVivo s e)
    (h0 : ∀ s₀ dummy risu stk s a, Caricato s₀ → kernelInit dummy risu stk s₀ = .ok s →
      Iniziale a → Rappr s a → J s a (A.inizio stk))
    (hav : ∀ s v t a ts b k, Rappr s a → Inv a → avvia s v = .ok t → TracciaAvvio s v ts →
      Run Mossa a ts b → Rappr t b → J s a k → J t b (A.avvio s v t k))
    (hgo : ∀ s t a b k, Rappr s a → Inv a → a.esecuzione = none → kernelGo s = .ok t →
      Mossa a .parte b → Rappr t b → J s a k → J t b k)
    (hev : ∀ s e t p ts a b k, Rappr s a → Regolare a → a.esecuzione = some p → Possibile s e →
      G s e → passo s e = .ok t → Traccia s p e ts → Run Mossa a ts b → Rappr t b → J s a k →
      J t b (A.evento s e t k)) :
    ∃ a, Rappr x.1 a ∧ Regolare a ∧ J x.1 a x.2 := by
  obtain ⟨x₀, ⟨s₀, dummy, risu, stk, s₁, avvii, x₂, hcar, hinit, hrun, hkgo, hfine⟩, hes⟩ := h
  obtain ⟨s₁', a₀, heq, hini, hR₀⟩ := kernelInit_eq hcar dummy risu stk
  obtain rfl := Except.ok.inj (heq.symm.trans hinit)
  obtain ⟨ts, a, -, hR, hI, hM, he, hJa⟩ := hrun.simulate (T := Run Mossa)
    (R := fun x a => Rappr x.1 a ∧ Inv a ∧ Mossa.Muto a ∧ a.esecuzione = none ∧ J x.1 a x.2)
    (fun x v y a hx hv => by
      obtain ⟨hR, hI, hM, he, hJa⟩ := hx
      obtain ⟨hok, hst⟩ := hv
      obtain ⟨t', ts, b, heq, htr, hts, hR', he'⟩ := avvia_eq hR hI he v
      obtain rfl := Except.ok.inj (heq.symm.trans hok)
      refine ⟨[ts], b, Run.single hts, hR', Mossa.inv_run hts hI, ?_, he', ?_⟩
      · refine Mossa.muto_run hts hI (fun hc => ?_) hM
        rcases htr.breve with rfl | ⟨t, ht, rfl⟩
        · cases hc
        · exact ht (List.mem_singleton.mp hc).symm
      · rw [hst]
        exact hav _ _ _ _ _ _ _ hR hI hok htr hts hR' hJa)
    ⟨hR₀, hini.inv, hini.muto, hini.esecuzione, h0 _ _ _ _ _ _ hcar hinit hini hR₀⟩
  obtain ⟨s', b, heq', hm, hR', hne⟩ := kernelGo_eq hR hI he
  obtain rfl := Except.ok.inj (heq'.symm.trans hkgo)
  have hM' := hm.muto hI (by rintro ⟨⟩) hM
  have hJ₀ : J x₀.1 b x₀.2 := by
    rw [hfine]
    exact hgo _ _ _ _ _ hR hI he hkgo hm hR' hJa
  refine hes.invariant (I := fun x => ∃ a, Rappr x.1 a ∧ Regolare a ∧ J x.1 a x.2) ?_
    ⟨b, hR', ⟨hm.inv hI, hne, hM'.zitto⟩, hJ₀⟩
  rintro x e y ⟨a, hR, hA, hJa⟩ ⟨⟨hposs, hg, hok⟩, hst⟩
  obtain ⟨p, ts, b, he, hts, hrun, hR', hA'⟩ := hR.mosse hA hposs hok (hG _ _ hg _ hok)
  refine ⟨b, hR', hA', ?_⟩
  rw [hst]
  exact hev _ _ _ _ _ _ _ _ hR hA he hposs hg hok hts hrun hR' hJa

/-! ## Evaluation -/

def tentaAvvio (A : Annotazione H) (x : Kernel × H) (v : Avvio) : Option (Kernel × H) :=
  match avvia x.1 v with
  | .ok s => some (s, A.avvio x.1 v s x.2)
  | .error _ => none

def tenta (A : Annotazione H) (G : Kernel → Evento → Prop) [∀ s e, Decidable (G s e)]
    (x : Kernel × H) (e : Evento) : Option (Kernel × H) :=
  if Possibile x.1 e ∧ G x.1 e then
    match passo x.1 e with
    | .ok s => some (s, A.evento x.1 e s x.2)
    | .error _ => none
  else none

def prova (A : Annotazione H) (G : Kernel → Evento → Prop) [∀ s e, Decidable (G s e)]
    (avvii : List Avvio) (es : List Evento) : Option (Kernel × H) :=
  match kernelInit 0x5000 0x5004 (pila 0x100000) caricato with
  | .error _ => none
  | .ok s =>
    match exec A.tentaAvvio (s, A.inizio (pila 0x100000)) avvii with
    | none => none
    | some x =>
      match kernelGo x.1 with
      | .error _ => none
      | .ok s => exec (A.tenta G) (s, x.2) es

theorem tentaAvvio_avvia {v : Avvio} (h : A.tentaAvvio x v = some y) : A.Avvia x v y := by
  unfold tentaAvvio at h
  split at h
  · rename_i s heq
    obtain rfl := Option.some.inj h
    exact ⟨heq, rfl⟩
  · cases h

theorem tenta_passo [∀ s e, Decidable (G s e)] {e : Evento} (h : A.tenta G x e = some y) :
    A.Passo G x e y := by
  unfold tenta at h
  split at h
  · rename_i hg
    split at h
    · rename_i s heq
      obtain rfl := Option.some.inj h
      exact ⟨⟨hg.1, hg.2, heq⟩, rfl⟩
    · cases h
  · cases h

/-- What holds at the end of an evaluated run holds of a system that is reached. -/
theorem prova_raggiunge [∀ s e, Decidable (G s e)] (avvii : List Avvio) (es : List Evento)
    (P : Kernel × H → Bool) (h : (A.prova G avvii es).any P = true) :
    ∃ x, A.Raggiunge G es x ∧ P x = true := by
  obtain ⟨x, hx, hP⟩ := Option.any_eq_true _ _ |>.mp h
  refine ⟨x, ?_, hP⟩
  unfold prova at hx
  split at hx
  · cases hx
  · rename_i s₁ h₁
    split at hx
    · cases hx
    · rename_i x₂ h₂
      split at hx
      · cases hx
      · rename_i s₃ h₃
        exact ⟨(s₃, x₂.2), ⟨caricato, 0x5000, 0x5004, pila 0x100000, s₁, avvii, x₂,
          caricato_caricato, h₁, (exec_run h₂).mono fun _ _ _ => tentaAvvio_avvia, h₃, rfl⟩,
          (exec_run hx).mono fun _ _ _ => tenta_passo⟩

end Annotazione

end Pitos
