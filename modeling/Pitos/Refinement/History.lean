import Pitos.Abstract.Semaphores
import Pitos.Refinement.Boot

/-!
# The kernel together with the history of its semaphores

A `Sistema` is a kernel state and, for each handle that `ki_sem_ini` has returned with a value
that is not negative, the counting semaphore it stands for. The history is written along with
the entries (`annota`); the kernel never reads it. `Segue` relates a system to an abstract
state and is preserved by every entry (`Segue.passo`): each semaphore of the kernel behaves as
its counting semaphore does.
-/

namespace Pitos

open Lib

abbrev Storia := Fin MAXSEMS → Option (PrioSem Pid)

structure Sistema where
  kernel : Kernel
  storia : Storia

/-- `prec` as a function on descriptors. -/
def Kernel.prec (s : Kernel) (p : Pid) : Int := (s.des (some p)).prec

def annotaIni (s : Kernel) (valore : Int) (h : Storia) : Storia :=
  match s.cercaSem with
  | none => h
  | some i =>
    Function.update h i (if 0 ≤ valore then some (PrioSem.new valore.toNat) else none)

/-- What an entry adds to the history. -/
def annota (s : Kernel) : Evento → Storia → Storia
  | .chiamata (.semIni valore _ _), h => annotaIni s valore h
  | .chiamata (.semWait hsem), h =>
    match maniglia hsem, s.esecuzione with
    | some i, some p => Function.update h i ((h i).map (PrioSem.wait p))
    | _, _ => h
  | .chiamata (.semSignal hsem), h =>
    match maniglia hsem, s.esecuzione with
    | some i, some p => Function.update h i ((h i).map (PrioSem.signal s.prec p))
    | _, _ => h
  | _, h => h

def annotaAvvio (s : Kernel) : Avvio → Storia → Storia
  | .semIni valore _ _, h => annotaIni s valore h
  | _, h => h

namespace Sistema

/-- An activation by `cmain`. -/
def Avvia (B : Avvio → Prop) (x : Sistema) (v : Avvio) (y : Sistema) : Prop :=
  B v ∧ avvia x.kernel v = .ok y.kernel ∧ y.storia = annotaAvvio x.kernel v x.storia

/-- One entry that comes back. -/
def Passo (G : Sistema → Evento → Prop) (x : Sistema) (e : Evento) (y : Sistema) : Prop :=
  Possibile x.kernel e ∧ G x e ∧ passo x.kernel e = .ok y.kernel ∧
    y.storia = annota x.kernel e x.storia

/-- The system when `kernel_go` gives the CPU away for the first time. -/
def Avviato (B : Avvio → Prop) (x : Sistema) : Prop :=
  ∃ s₀ dummy risu stk x₁ avvii x₂, Caricato s₀ ∧ kernelInit dummy risu stk s₀ = .ok x₁.kernel ∧
    x₁.storia = (fun _ => none) ∧ Run (Avvia B) x₁ avvii x₂ ∧
    kernelGo x₂.kernel = .ok x.kernel ∧ x.storia = x₂.storia

def Raggiunge (B : Avvio → Prop) (G : Sistema → Evento → Prop) (es : List Evento)
    (x : Sistema) : Prop :=
  ∃ x₀, Avviato B x₀ ∧ Run (Passo G) x₀ es x

/-- The handle was returned by `ki_sem_ini`, called with a value that is not negative. -/
def Emesso (x : Sistema) (hsem : Int) : Prop :=
  ∃ i, maniglia hsem = some i ∧ (x.storia i).isSome = true

end Sistema

/-- A signal finds `count` below its maximum. -/
def SottoSoglia (x : Sistema) : Evento → Prop
  | .chiamata (.semSignal hsem) => ∀ i, maniglia hsem = some i → (x.storia i).isSome = true →
    (x.kernel.dessem i).count ≠ INT_MAX
  | _ => True

/-- The argument `valore` of an initialization by `cmain` is an `int`. -/
def InteriAvvio : Avvio → Prop
  | .semIni valore _ _ => Intero valore
  | .attiva _ _ prec level _ _ _ => Intero prec ∧ Intero level

/-! ## The semaphores along a run -/

section

variable {a b : Astratto} {t : Atto} {ts sig : List Atto} {i : Fin MAXSEMS} {m : PrioSem Pid}
  {s : Kernel} {p : Pid} {h : Storia}

theorem Specchio.run (hS : Specchio a i m) (hI : Inv a) (hr : Run Mossa a ts b)
    (ht : ∀ t ∈ ts, ¬ t.riguarda i) : Specchio b i m := by
  induction hr with
  | nil => exact hS
  | cons hm _ ih =>
    exact ih (hS.altrove hI hm (ht _ List.mem_cons_self)) (hm.inv hI) fun t h =>
      ht t (List.mem_cons_of_mem _ h)

theorem Segnali.riguarda (hs : Segnali sig) : ∀ t ∈ sig, ¬ t.riguarda i := by
  rcases hs with rfl | rfl | ⟨p, -, rfl⟩
  · exact fun t h => absurd h List.not_mem_nil
  · intro t h
    rw [List.mem_singleton.mp h]
    exact id
  · intro t h
    rcases List.mem_cons.mp h with rfl | h
    · exact id
    · rw [List.mem_singleton.mp h]
      exact id

theorem Rappr.Tick.riguarda (hs : Rappr.Tick ts) : ∀ t ∈ ts, ¬ t.riguarda i := by
  obtain ⟨sig, t₀, hsig, ht₀, rfl⟩ := hs
  intro t h
  simp only [List.mem_cons, List.mem_append, List.not_mem_nil, or_false] at h
  rcases h with rfl | rfl | h | rfl
  · exact id
  · exact id
  · exact hsig.riguarda t h
  · rcases ht₀ with rfl | rfl | rfl <;> exact id

theorem tasto_riguarda {code : BitVec 8} (hs : Traccia s p (.tasto code) ts) :
    ∀ t ∈ ts, ¬ t.riguarda i := by
  intro t h
  rw [show ts = _ from hs] at h
  split at h
  · split at h <;> rw [List.mem_singleton.mp h] <;> exact id
  · cases h

/-- The initialization of a semaphore. -/
theorem specchio_ini (hI : Inv a) (hS : ∀ j m, h j = some m → Specchio a j m) {valore : Int}
    (hv : Intero valore) (hc : s.cercaSem = some i) (hm : Mossa a (.semIni i valore) b) :
    ∀ j m, annotaIni s valore h j = some m → Specchio b j m := by
  intro j m hj
  simp only [annotaIni, hc] at hj
  by_cases hji : j = i
  · subst hji
    rw [Function.update_self] at hj
    split at hj
    · rename_i h0
      obtain rfl := Option.some.inj hj
      exact Specchio.ini h0 hv.2 hm
    · cases hj
  · rw [Function.update_of_ne hji] at hj
    exact (hS j m hj).altrove hI hm fun e => hji e.symm

/-- A move that is the operation `f` on semaphore `i`. -/
theorem specchio_op {f : PrioSem Pid → PrioSem Pid} (hI : Inv a)
    (hS : ∀ j m, h j = some m → Specchio a j m) (hm : Mossa a t b)
    (ht : ∀ j, j ≠ i → ¬ t.riguarda j) (hf : ∀ m, h i = some m → Specchio b i (f m)) :
    ∀ j m, Function.update h i ((h i).map f) j = some m → Specchio b j m := by
  intro j m hj
  by_cases hji : j = i
  · subst hji
    rw [Function.update_self] at hj
    obtain ⟨m₀, hm₀, rfl⟩ := Option.map_eq_some_iff.mp hj
    exact hf m₀ hm₀
  · rw [Function.update_of_ne hji] at hj
    exact (hS j m hj).altrove hI hm (ht j hji)

/-- A system call. -/
theorem specchio_chiamata (hR : Rappr s a) (hI : Inv a) (he : a.esecuzione = some p)
    (hS : ∀ j m, h j = some m → Specchio a j m) {c : Chiamata} (hint : Interi c)
    (hmax : SottoSoglia ⟨s, h⟩ (.chiamata c)) (ht : Compie s p c t) (hm : Mossa a t b) :
    ∀ j m, annota s (.chiamata c) h j = some m → Specchio b j m := by
  have hesec : s.esecuzione = some p := hR.esecuzione.trans he
  have haltrove : (∀ j, ¬ t.riguarda j) → ∀ j m, h j = some m → Specchio b j m :=
    fun ht j m hj => (hS j m hj).altrove hI hm (ht j)
  cases c with
  | semIni valore idx risu =>
    cases hc : s.cercaSem with
    | none =>
      simp only [Compie, hc] at ht
      subst ht
      simp only [annota, annotaIni, hc]
      exact haltrove fun j => id
    | some i =>
      simp only [Compie, hc] at ht
      subst ht
      exact specchio_ini hI hS hint hc hm
  | semWait hsem =>
    cases hi : maniglia hsem with
    | none =>
      simp only [Compie, hi] at ht
      subst ht
      simp only [annota, hi]
      exact haltrove fun j => id
    | some i =>
      simp only [Compie, hi] at ht
      simp only [annota, hi, hesec]
      rcases ht with rfl | rfl
      · exact specchio_op hI hS hm (fun j hj e => hj e.symm) fun m hj => (hS i m hj).passa hI hm p
      · exact specchio_op hI hS hm (fun j hj e => hj e.symm) fun m hj => (hS i m hj).blocca hI hm
  | semSignal hsem =>
    cases hi : maniglia hsem with
    | none =>
      simp only [Compie, hi] at ht
      subst ht
      simp only [annota, hi]
      exact haltrove fun j => id
    | some i =>
      simp only [Compie, hi] at ht
      have hkey : s.prec = a.prec := funext hR.prec
      simp only [annota, hi, hesec, hkey]
      have hlt : ∀ m, h i = some m → (a.sem i).count < INT_MAX := by
        intro m hj
        have hne := hmax i hi (by show (h i).isSome = true; rw [hj]; rfl)
        have hle := (hS i m hj).massimo
        rw [hR.count] at hne
        omega
      rcases ht with rfl | ⟨q, rfl | rfl⟩
      · exact specchio_op hI hS hm (fun j hj e => hj e.symm) fun m hj =>
          (hS i m hj).libera hI hm (hlt m hj) p
      · exact specchio_op hI hS hm (fun j hj e => hj e.symm) fun m hj =>
          (hS i m hj).sveglia hI hm (hlt m hj) p
      · exact specchio_op hI hS hm (fun j hj e => hj e.symm) fun m hj =>
          (hS i m hj).cede hI hm (hlt m hj) p
  | activateP f h prec idx risu stk =>
    apply haltrove
    intro j
    rcases ht with rfl | ⟨q, rfl⟩ <;> exact id
  | delay n z =>
    apply haltrove
    intro j
    rw [show t = .dorme (n.tdiv 50) (z, p) from ht]
    exact id
  | terminateP =>
    apply haltrove
    intro j
    rw [show t = .termina p from ht]
    exact id
  | _ =>
    apply haltrove
    intro j
    rw [show t = .dati from ht]
    exact id

end

/-- The abstract state of a system whose semaphores behave as their histories say. -/
structure Segue (x : Sistema) (a : Astratto) : Prop where
  rappr : Rappr x.kernel a
  regolare : Regolare a
  specchio : ∀ i m, x.storia i = some m → Specchio a i m

/-- **Semaphores are counting semaphores.** Every entry that comes back keeps the relation
between the semaphores and their histories. -/
theorem Segue.passo {G : Sistema → Evento → Prop} (hG : ∀ x e, G x e → IdleVivo x.kernel e)
    (hG' : ∀ x e, G x e → SottoSoglia x e) {x y : Sistema} {e : Evento} {a : Astratto}
    (h : Segue x a) (hp : Sistema.Passo G x e y) :
    ∃ p ts b, a.esecuzione = some p ∧ Traccia x.kernel p e ts ∧ Run Mossa a ts b ∧ Segue y b := by
  obtain ⟨hposs, hg, heq, hstoria⟩ := hp
  obtain ⟨p, ts, b, he, hts, hrun, hR', hA'⟩ :=
    h.rappr.mosse h.regolare hposs heq (hG _ _ hg _ heq)
  refine ⟨p, ts, b, he, hts, hrun, hR', hA', ?_⟩
  rw [hstoria]
  cases e with
  | chiamata c =>
    obtain ⟨t, sig, ht, hsig, rfl⟩ := hts
    cases hrun with
    | cons hm hrun =>
      intro i m hi
      exact (specchio_chiamata h.rappr h.regolare.inv he h.specchio hposs.2.1 (hG' _ _ hg) ht hm
        i m hi).run (hm.inv h.regolare.inv) hrun hsig.riguarda
  | chiamataErrata =>
    intro i m hi
    apply (h.specchio i m hi).run h.regolare.inv hrun
    rw [show ts = [] from hts]
    exact fun t h => absurd h List.not_mem_nil
  | tick =>
    exact fun i m hi => (h.specchio i m hi).run h.regolare.inv hrun hts.riguarda
  | tasto code =>
    intro i m hi
    apply (h.specchio i m hi).run h.regolare.inv hrun
    intro t ht
    exact tasto_riguarda hts t ht
  | eccezione =>
    intro i m hi
    apply (h.specchio i m hi).run h.regolare.inv hrun
    intro t ht
    rw [show ts = [.termina p] from hts, List.mem_singleton] at ht
    subst ht
    exact id
  | ritorno => exact absurd hts id

/-! ## Invariants of the moves and the history -/

section Invariante

variable {B : Avvio → Prop} {G : Sistema → Evento → Prop} {J : Astratto → Storia → Prop}
  {x y : Sistema} {es : List Evento}

/-- What holds at the start and is kept by the activations of `cmain` and by `kernel_go` holds
when the first process runs. -/
theorem Sistema.Avviato.segue (h : Sistema.Avviato B x) (hB : ∀ v, B v → InteriAvvio v)
    (h0 : ∀ a, Iniziale a → J a fun _ => none)
    (hJ : ∀ s v ts a b h, B v → Rappr s a → Inv a → TracciaAvvio s v ts → Run Mossa a ts b →
      (∀ i m, h i = some m → Specchio a i m) → J a h → J b (annotaAvvio s v h))
    (hgo : ∀ a b h, Mossa a .parte b → Inv a → J a h → J b h) :
    ∃ a, Segue x a ∧ J a x.storia := by
  obtain ⟨s₀, dummy, risu, stk, x₁, avvii, x₂, hcar, hinit, hstoria, hrun, hkgo, hfine⟩ := h
  obtain ⟨s₁', a₀, heq, hini, hR₀⟩ := kernelInit_eq hcar dummy risu stk
  obtain rfl := Except.ok.inj (heq.symm.trans hinit)
  have hbase : ∀ i m, x₁.storia i = some m → Specchio a₀ i m := by
    intro i m hi
    rw [hstoria] at hi
    cases hi
  obtain ⟨ts, a, -, ⟨hR, hI, hZ, he⟩, hS, hJa⟩ := hrun.simulate (T := Run Mossa)
    (R := fun x a => (Rappr x.kernel a ∧ Inv a ∧ Mossa.Muto a ∧ a.esecuzione = none) ∧
      (∀ i m, x.storia i = some m → Specchio a i m) ∧ J a x.storia)
    (fun x v y a hx hv => by
      obtain ⟨⟨hR, hI, hZ, he⟩, hS, hJa⟩ := hx
      obtain ⟨hb, hok, hst⟩ := hv
      obtain ⟨t', ts, b, heq, htr, hts, hR', he'⟩ := avvia_eq hR hI he v
      obtain rfl := Except.ok.inj (heq.symm.trans hok)
      have hIb := Mossa.inv_run hts hI
      have hZb := Mossa.muto_run hts hI (fun hc => by
        rcases htr.breve with rfl | ⟨t, ht, rfl⟩
        · cases hc
        · exact ht (List.mem_singleton.mp hc).symm) hZ
      refine ⟨[ts], b, Run.single hts, ⟨hR', hIb, hZb, he'⟩, ?_, ?_⟩
      · rw [hst]
        cases v with
        | attiva f h prec level idx risu stk =>
          intro i m hi
          apply (hS i m hi).run hI hts
          intro t ht
          rcases htr with rfl | ⟨q, rfl⟩
          · exact absurd ht List.not_mem_nil
          · rw [List.mem_singleton.mp ht]
            exact id
        | semIni valore idx risu =>
          cases hc : x.kernel.cercaSem with
          | none =>
            simp only [TracciaAvvio, hc] at htr
            subst htr
            simp only [annotaAvvio, annotaIni, hc]
            cases hts
            exact hS
          | some i =>
            simp only [TracciaAvvio, hc] at htr
            subst htr
            cases hts with
            | cons hm hnil =>
              cases hnil
              exact specchio_ini hI hS (hB _ hb) hc hm
      · rw [hst]
        exact hJ _ _ _ _ _ _ hb hR hI htr hts hS hJa)
    ⟨⟨hR₀, hini.inv, hini.muto, hini.esecuzione⟩, hbase, by rw [hstoria]; exact h0 a₀ hini⟩
  obtain ⟨s', b, heq', hm, hR', hne⟩ := kernelGo_eq hR hI he
  obtain rfl := Except.ok.inj (heq'.symm.trans hkgo)
  refine ⟨b, ⟨hR', ⟨hm.inv hI, hne, (hm.muto hI (by rintro ⟨⟩) hZ).zitto⟩, fun i m hi => ?_⟩, ?_⟩
  · rw [hfine] at hi
    exact (hS i m hi).altrove hI hm id
  · rw [hfine]
    exact hgo _ _ _ hm hI hJa

/-- What every entry keeps as well holds in every system that is reached. -/
theorem Sistema.Raggiunge.segue (h : Sistema.Raggiunge B G es x)
    (hB : ∀ v, B v → InteriAvvio v) (hG : ∀ x e, G x e → IdleVivo x.kernel e)
    (hG' : ∀ x e, G x e → SottoSoglia x e) (h0 : ∀ a, Iniziale a → J a fun _ => none)
    (hJ : ∀ s v ts a b h, B v → Rappr s a → Inv a → TracciaAvvio s v ts → Run Mossa a ts b →
      (∀ i m, h i = some m → Specchio a i m) → J a h → J b (annotaAvvio s v h))
    (hgo : ∀ a b h, Mossa a .parte b → Inv a → J a h → J b h)
    (hJ' : ∀ x e p ts a b, Segue x a → a.esecuzione = some p → G x e → Traccia x.kernel p e ts →
      Run Mossa a ts b → J a x.storia → J b (annota x.kernel e x.storia)) :
    ∃ a, Segue x a ∧ J a x.storia := by
  obtain ⟨x₀, hx₀, hrun⟩ := h
  obtain ⟨a, ha, hJa⟩ := hx₀.segue hB h0 hJ hgo
  obtain ⟨ts, b, -, hb⟩ := hrun.simulate (T := Run Mossa)
    (R := fun x a => Segue x a ∧ J a x.storia) (fun x e y a hx hp => by
      obtain ⟨p, ts, b, he, hts, hr, hb⟩ := hx.1.passo hG hG' hp
      refine ⟨[ts], b, Run.single hr, hb, ?_⟩
      rw [hp.2.2.2]
      exact hJ' _ _ _ _ _ _ hx.1 he hp.2.1 hts hr hx.2) ⟨ha, hJa⟩
  exact ⟨b, hb⟩

end Invariante

end Pitos
