import Pitos.Lib.Overtaking
import Pitos.Properties.Semaphores

/-!
# How long a process waits at a semaphore

While a process waits, every signal brings it one place forward and every wait of a process with a
better priority one place back, and nothing else moves it: neither what happens at other semaphores
nor the clock nor new priorities. It goes on with the signal that finds it in the first place.
-/

namespace Pitos

open Lib Astratto

section Mosse

variable {a b : Astratto} {t : Atto} {ts sig : List Atto} {i : Fin MAXSEMS} {m : PrioSem Pid}
  {p q : Pid}

theorem Inv.coda_nodup (hI : Inv a) (i : Fin MAXSEMS) : (a.sem i).coda.Nodup := by
  apply List.nodup_iff_count_le_one.mpr
  intro q
  have hle : (a.sem i).coda.count q ≤ ∑ j, (a.sem j).coda.count q :=
    Finset.single_le_sum (f := fun j => (a.sem j).coda.count q) (fun _ _ => Nat.zero_le _)
      (Finset.mem_univ i)
  have h1 := hI.inCoda_le q
  unfold inCoda at h1
  exact hle.trans (by omega)

/-- Somebody waits, so there is no permit, and one signal more does not make one. -/
theorem Specchio.count_neg (h : Specchio a i m) (hI : Inv a) (hq : q ∈ (a.sem i).coda) :
    (a.sem i).count < 0 ∧ int32 ((a.sem i).count + 1) ≤ 0 := by
  have hcount := h.count
  have hpos := List.length_pos_of_mem (h.serve.mem_iff.mp hq)
  have hmax : (0 : Int) ≤ INT_MAX := by decide
  rcases h.waiting_nil_or with hw | h0
  · rw [hw] at hpos
    exact absurd hpos (Nat.lt_irrefl 0)
  · have hneg : (a.sem i).count < 0 := by omega
    rw [h.int32_count hI (by omega) (by omega)]
    exact ⟨hneg, by omega⟩

/-- What a move does to a queue in which somebody waits. -/
theorem Mossa.coda_cases (h : Mossa a t b) (hS : Specchio a i m) (hI : Inv a)
    (hq : q ∈ (a.sem i).coda) :
    (¬ t.riguarda i ∧ (b.sem i).coda = (a.sem i).coda) ∨
    (∃ p, t = .blocca i p ∧ p ≠ q ∧ (b.sem i).coda = insertByKey a.prec p (a.sem i).coda) ∨
    ∃ r l, (t = .sveglia i r ∨ ∃ p, t = .cede i p r) ∧ (a.sem i).coda = r :: l ∧
      (b.sem i).coda = l := by
  by_cases ht : t.riguarda i
  · obtain ⟨hneg, hsig⟩ := hS.count_neg hI hq
    cases h with
    | semIni j valore hbusy =>
      obtain rfl := show j = i from ht
      exact absurd hbusy (by rw [hS.busy]; decide)
    | passa j hc =>
      obtain rfl := show j = i from ht
      rw [hS.int32_pred hI] at hc
      omega
    | blocca j p he hp hc =>
      obtain rfl := show j = i from ht
      refine Or.inr (Or.inl ⟨p, rfl, ?_, ?_⟩)
      · intro e
        have h1 := hI.inCoda_esecuzione (e ▸ he)
        have h2 := presenze_pos_of_coda hq
        omega
      · rw [sem_schedulatore]
        simp [setCoda, setCount, setSem]
    | libera j hc =>
      obtain rfl := show j = i from ht
      rcases hc with hc | hc
      · omega
      · rw [hc] at hq
        cases hq
    | sveglia j p r l he hc hl hprec =>
      obtain rfl := show j = i from ht
      refine Or.inr (Or.inr ⟨r, l, Or.inl rfl, hl, ?_⟩)
      simp [accoda, setCoda, setCount, setSem]
    | cede j p r l he hc hl hprec =>
      obtain rfl := show j = i from ht
      refine Or.inr (Or.inr ⟨r, l, Or.inr ⟨p, rfl⟩, hl, ?_⟩)
      simp [accoda, setCoda, setCount, setSem, setEsecuzione, Astratto.aggiorna]
    | _ => exact absurd ht id
  · exact Or.inl ⟨ht, by rw [h.sem_eq ht]⟩

/-- The places that a move brings a waiter forward. -/
def Atto.avanti (i : Fin MAXSEMS) : Atto → Nat
  | .sveglia j _ => if j = i then 1 else 0
  | .cede j _ _ => if j = i then 1 else 0
  | _ => 0

/-- The places that a move brings `q` back. -/
def Atto.indietro (a : Astratto) (i : Fin MAXSEMS) (q : Pid) : Atto → Nat
  | .blocca j p => if j = i ∧ a.prec p < a.prec q then 1 else 0
  | _ => 0

theorem Atto.fermo (ht : ¬ t.riguarda i) : t.avanti i = 0 ∧ t.indietro a i q = 0 := by
  cases t with
  | sveglia j r => exact ⟨if_neg ht, rfl⟩
  | cede j p r => exact ⟨if_neg ht, rfl⟩
  | blocca j p => exact ⟨rfl, if_neg fun h => ht h.1⟩
  | _ => exact ⟨rfl, rfl⟩

theorem Atto.servito {r : Pid} (ht : t = .sveglia i r ∨ ∃ p, t = .cede i p r) :
    t.avanti i = 1 ∧ t.indietro a i q = 0 := by
  rcases ht with rfl | ⟨p, rfl⟩
  · exact ⟨if_pos rfl, rfl⟩
  · exact ⟨if_pos rfl, rfl⟩

/-- The place of a waiter after a move. -/
theorem Mossa.posto (h : Mossa a t b) (hS : Specchio a i m) (hI : Inv a) (hq : q ∈ (a.sem i).coda)
    (hq' : q ∈ (b.sem i).coda) :
    (b.sem i).coda.idxOf q + t.avanti i = (a.sem i).coda.idxOf q + t.indietro a i q := by
  rcases h.coda_cases hS hI hq with ⟨ht, hcoda⟩ | ⟨p, rfl, hne, hcoda⟩ | ⟨r, l, ht, hl, hcoda⟩
  · obtain ⟨h1, h2⟩ := Atto.fermo (a := a) (q := q) ht
    rw [hcoda, h1, h2]
  · rw [hcoda, idxOf_insertByKey_eq hS.serve.sorted hq hne]
    simp only [Atto.avanti, Atto.indietro, true_and, Nat.add_zero]
  · obtain ⟨h1, h2⟩ := Atto.servito (a := a) (q := q) ht
    have hnodup := hI.coda_nodup i
    rw [hcoda] at hq' ⊢
    rw [hl] at hnodup ⊢
    rw [h1, h2, idxOf_tail hnodup hq', Nat.add_zero]

/-- Who leaves the queue does so from the first place, through a signal. -/
theorem Mossa.esce (h : Mossa a t b) (hS : Specchio a i m) (hI : Inv a) (hq : q ∈ (a.sem i).coda)
    (hq' : q ∉ (b.sem i).coda) : t.avanti i = 1 ∧ (a.sem i).coda.idxOf q = 0 := by
  rcases h.coda_cases hS hI hq with ⟨-, hcoda⟩ | ⟨p, -, -, hcoda⟩ | ⟨r, l, ht, hl, hcoda⟩
  · rw [hcoda] at hq'
    exact absurd hq hq'
  · rw [hcoda] at hq'
    exact absurd (mem_insertByKey.mpr (Or.inr hq)) hq'
  · rw [hcoda] at hq'
    rw [hl] at hq ⊢
    obtain rfl := (List.mem_cons.mp hq).resolve_right hq'
    exact ⟨(Atto.servito (a := a) (q := q) ht).1, List.idxOf_cons_self⟩

theorem coda_run (h : Run Mossa a ts b) (ht : ∀ t ∈ ts, ¬ t.riguarda i) :
    (b.sem i).coda = (a.sem i).coda := by
  induction h with
  | nil => rfl
  | cons hm _ ih =>
    rw [ih fun t h => ht t (List.mem_cons_of_mem _ h), hm.sem_eq (ht _ List.mem_cons_self)]

end Mosse

/-! ## The entries -/

/-- `q` stands in the queue of semaphore `i`. -/
def Kernel.Attende (s : Kernel) (i : Fin MAXSEMS) (q : Pid) : Prop :=
  ∃ l, Linked (successore s.des) (s.dessem i).coda l ∧ q ∈ l

/-- A call of `ki_sem_signal` for semaphore `i`. -/
def Evento.segnala (i : Fin MAXSEMS) : Evento → Bool
  | .chiamata (.semSignal hsem) => maniglia hsem = some i
  | _ => false

/-- A call of `ki_sem_wait` for semaphore `i` by a process of a better priority than `q`. -/
def Evento.supera (s : Kernel) (i : Fin MAXSEMS) (q : Pid) : Evento → Bool
  | .chiamata (.semWait hsem) =>
    maniglia hsem = some i ∧ ∃ p, s.esecuzione = some p ∧ s.prec p < s.prec q
  | _ => false

section Entrate

variable {x : Sistema} {a b : Astratto} {e : Evento} {p q : Pid} {ts : List Atto} {t : Atto}
  {i : Fin MAXSEMS} {m : PrioSem Pid}

/-- No entry but a call is about a semaphore. -/
theorem Traccia.senza_chiamata {s : Kernel} (h : Traccia s p e ts) (he : ∀ c, e ≠ .chiamata c) :
    ∀ t ∈ ts, ¬ t.riguarda i := by
  cases e with
  | chiamata c => exact absurd rfl (he c)
  | chiamataErrata =>
    rw [show ts = [] from h]
    exact fun t ht => absurd ht List.not_mem_nil
  | tick => exact Rappr.Tick.riguarda h
  | tasto code => exact tasto_riguarda h
  | eccezione =>
    intro t ht
    rw [show ts = [.termina p] from h, List.mem_singleton] at ht
    subst ht
    exact id
  | ritorno => exact absurd h id

/-- The move of a call, by what the call says. -/
theorem Segue.compie (h : Segue x a) (hm : x.storia i = some m) (he : a.esecuzione = some p)
    {c : Chiamata} (ht : Compie x.kernel p c t) (hmossa : Mossa a t b) (hq : q ∈ (a.sem i).coda) :
    t.avanti i = ((Evento.chiamata c).segnala i).toNat ∧
      t.indietro a i q = ((Evento.chiamata c).supera x.kernel i q).toNat := by
  have hcases := hmossa.coda_cases (h.specchio i m hm) h.regolare.inv hq
  have hesec : x.kernel.esecuzione = some p := h.rappr.esecuzione.trans he
  have hprec : x.kernel.prec = a.prec := funext h.rappr.prec
  cases c with
  | semWait hsem =>
    simp only [Compie] at ht
    cases hi : maniglia hsem with
    | none =>
      rw [hi] at ht
      subst ht
      simp [Evento.segnala, Evento.supera, Atto.avanti, Atto.indietro, hi]
    | some j =>
      rw [hi] at ht
      rcases ht with rfl | rfl
      · have hne : j ≠ i := by
          intro hji
          rcases hcases with ⟨hno, -⟩ | ⟨r, hr, -⟩ | ⟨r, l, hr | ⟨r', hr⟩, -⟩
          · exact hno hji
          · cases hr
          · cases hr
          · cases hr
        simp [Evento.segnala, Evento.supera, Atto.avanti, Atto.indietro, hi, hne]
      · by_cases hji : j = i
        · by_cases hlt : a.prec p < a.prec q <;>
            simp [Evento.segnala, Evento.supera, Atto.avanti, Atto.indietro, hi, hesec, hprec, hji,
              hlt]
        · simp [Evento.segnala, Evento.supera, Atto.avanti, Atto.indietro, hi, hji]
  | semSignal hsem =>
    simp only [Compie] at ht
    cases hi : maniglia hsem with
    | none =>
      rw [hi] at ht
      subst ht
      simp [Evento.segnala, Evento.supera, Atto.avanti, Atto.indietro, hi]
    | some j =>
      rw [hi] at ht
      rcases ht with rfl | ⟨r, rfl | rfl⟩
      · have hne : j ≠ i := by
          intro hji
          rcases hcases with ⟨hno, -⟩ | ⟨r, hr, -⟩ | ⟨r, l, hr | ⟨r', hr⟩, -⟩
          · exact hno hji
          · cases hr
          · cases hr
          · cases hr
        simp [Evento.segnala, Evento.supera, Atto.avanti, Atto.indietro, hi, hne]
      · by_cases hji : j = i <;>
          simp [Evento.segnala, Evento.supera, Atto.avanti, Atto.indietro, hi, hji]
      · by_cases hji : j = i <;>
          simp [Evento.segnala, Evento.supera, Atto.avanti, Atto.indietro, hi, hji]
  | activateP f k prec idx risu stk =>
    rcases ht with rfl | ⟨r, rfl⟩ <;> exact ⟨rfl, rfl⟩
  | semIni valore idx risu =>
    simp only [Compie] at ht
    split at ht <;> subst ht <;> exact ⟨rfl, rfl⟩
  | _ =>
    subst ht
    exact ⟨rfl, rfl⟩

theorem Segue.posto (h : Segue x a) (hm : x.storia i = some m)
    (he : a.esecuzione = some p) (hts : Traccia x.kernel p e ts) (hr : Run Mossa a ts b)
    (hq : q ∈ (a.sem i).coda) :
    (q ∈ (b.sem i).coda → (b.sem i).coda.idxOf q + (e.segnala i).toNat =
      (a.sem i).coda.idxOf q + (e.supera x.kernel i q).toNat) ∧
    (q ∉ (b.sem i).coda → e.segnala i = true ∧ (a.sem i).coda.idxOf q = 0) := by
  by_cases hc : ∃ c, e = .chiamata c
  · obtain ⟨c, rfl⟩ := hc
    obtain ⟨t, sig, ht, hsig, rfl⟩ := hts
    cases hr with
    | cons hmossa hrest =>
      have hS := h.specchio i m hm
      have hI := h.regolare.inv
      obtain ⟨h1, h2⟩ := h.compie hm he ht hmossa hq
      rw [coda_run hrest hsig.riguarda, ← h1, ← h2]
      refine ⟨hmossa.posto hS hI hq, fun hq' => ?_⟩
      obtain ⟨h3, h4⟩ := hmossa.esce hS hI hq hq'
      refine ⟨?_, h4⟩
      rw [h3] at h1
      cases hs : (Evento.chiamata c).segnala i with
      | true => rfl
      | false =>
        rw [hs] at h1
        cases h1
  · have hno : ∀ c, e ≠ .chiamata c := fun c hc' => hc ⟨c, hc'⟩
    have hzero : e.segnala i = false ∧ e.supera x.kernel i q = false := by
      cases e with
      | chiamata c => exact absurd rfl (hno c)
      | _ => exact ⟨rfl, rfl⟩
    rw [coda_run hr (hts.senza_chiamata hno), hzero.1, hzero.2]
    exact ⟨fun _ => rfl, fun hq' => absurd hq hq'⟩

end Entrate

/-! ## The runs -/

/-- The entries that leave the idle process alive and find `count` below its maximum. -/
def Regolato (x : Sistema) (e : Evento) : Prop := IdleVivo x.kernel e ∧ SottoSoglia x e

instance (x : Sistema) (e : Evento) : Decidable (Regolato x e) := inferInstanceAs (Decidable (_ ∧ _))

/-- An entry through which `q` waits; the step is labelled with the state before it. -/
def Rimane (i : Fin MAXSEMS) (q : Pid) (x : Sistema) (z : Sistema × Evento) (y : Sistema) : Prop :=
  z.1 = x ∧ Sistema.Passo Regolato x z.2 y ∧ x.kernel.Attende i q ∧ y.kernel.Attende i q

/-- The signals of a run. -/
def segnali (i : Fin MAXSEMS) (zs : List (Sistema × Evento)) : Nat :=
  zs.countP fun z => z.2.segnala i

/-- The waits of better processes. -/
def sorpassi (i : Fin MAXSEMS) (q : Pid) (zs : List (Sistema × Evento)) : Nat :=
  zs.countP fun z => z.2.supera z.1.kernel i q

theorem countP_cons_toNat {α : Type*} (f : α → Bool) (a : α) (l : List α) :
    (a :: l).countP f = l.countP f + (f a).toNat := by
  rw [List.countP_cons]
  cases f a <;> rfl

theorem Segue.attende {x : Sistema} {a : Astratto} {i : Fin MAXSEMS} {q : Pid} (h : Segue x a) :
    x.kernel.Attende i q ↔ q ∈ (a.sem i).coda := by
  constructor
  · intro hw
    obtain ⟨l, hl, hq⟩ := hw
    rwa [hl.unique (h.rappr.coda i)] at hq
  · intro hq
    exact ⟨_, h.rappr.coda i, hq⟩

/-- A semaphore stays the one that it is. -/
theorem Segue.storia_isSome {x : Sistema} {a : Astratto} {i : Fin MAXSEMS} (h : Segue x a)
    (hm : (x.storia i).isSome) (e : Evento) : (annota x.kernel e x.storia i).isSome := by
  obtain ⟨m, hm'⟩ := Option.isSome_iff_exists.mp hm
  have hmap : ∀ (j : Fin MAXSEMS) (f : PrioSem Pid → PrioSem Pid),
      (Function.update x.storia j ((x.storia j).map f) i).isSome := by
    intro j f
    by_cases hji : i = j
    · subst hji
      rw [Function.update_self, hm']
      rfl
    · rw [Function.update_of_ne hji, hm']
      rfl
  cases e with
  | chiamata c =>
    cases c with
    | semIni valore idx risu =>
      simp only [annota, annotaIni]
      cases hj : x.kernel.cercaSem with
      | none => exact hm
      | some j =>
        have hne : i ≠ j := by
          intro hij
          have hfree := cercaSem_eq hj
          rw [h.rappr.busy, ← hij, (h.specchio i m hm').busy] at hfree
          cases hfree
        simp only [Function.update_of_ne hne, hm', Option.isSome_some]
    | semWait hsem =>
      simp only [annota]
      cases maniglia hsem with
      | none => exact hm
      | some j =>
        cases x.kernel.esecuzione with
        | none => exact hm
        | some p => exact hmap j _
    | semSignal hsem =>
      simp only [annota]
      cases maniglia hsem with
      | none => exact hm
      | some j =>
        cases x.kernel.esecuzione with
        | none => exact hm
        | some p => exact hmap j _
    | _ => exact hm
  | _ => exact hm

theorem Rimane.corsa {i : Fin MAXSEMS} {q : Pid} {x y : Sistema} {zs : List (Sistema × Evento)}
    {a : Astratto} (hrun : Run (Rimane i q) x zs y) (h : Segue x a) (hm : (x.storia i).isSome) :
    ∃ b, Segue y b ∧ (y.storia i).isSome ∧
      (b.sem i).coda.idxOf q + segnali i zs = (a.sem i).coda.idxOf q + sorpassi i q zs := by
  induction hrun generalizing a with
  | nil => exact ⟨a, h, hm, rfl⟩
  | @cons x w y z zs hstep _ ih =>
    obtain ⟨rfl, hp, hx, hw⟩ := hstep
    obtain ⟨p, ts, b, he, hts, hr, hb⟩ := h.passo (fun _ _ h => h.1) (fun _ _ h => h.2) hp
    obtain ⟨m, hm'⟩ := Option.isSome_iff_exists.mp hm
    have hposto := (h.posto hm' he hts hr (h.attende.mp hx)).1 (hb.attende.mp hw)
    have hw' : (w.storia i).isSome := by
      rw [hp.2.2.2]
      exact h.storia_isSome hm z.2
    obtain ⟨c, hc, hmc, hposti⟩ := ih hb hw'
    refine ⟨c, hc, hmc, ?_⟩
    unfold segnali sorpassi at hposti ⊢
    rw [countP_cons_toNat, countP_cons_toNat]
    omega

/-- While `q` waits its place is known from the signals and from the waits of better processes, and
it goes on with the first signal that finds it in front. -/
theorem attesa_semaforo (es : List Evento) (x : Sistema)
    (h : Sistema.Raggiunge InteriAvvio Regolato es x) (i : Fin MAXSEMS)
    (hm : (x.storia i).isSome) (q : Pid) (l : List Pid)
    (hl : Linked (successore x.kernel.des) (x.kernel.dessem i).coda l)
    (zs : List (Sistema × Evento)) (y : Sistema) (hrun : Run (Rimane i q) x zs y) :
    (∀ l', Linked (successore y.kernel.des) (y.kernel.dessem i).coda l' →
      l'.idxOf q + segnali i zs = l.idxOf q + sorpassi i q zs) ∧
    ∀ e z, Sistema.Passo Regolato y e z → y.kernel.Attende i q → ¬ z.kernel.Attende i q →
      e.segnala i = true ∧ segnali i zs = l.idxOf q + sorpassi i q zs := by
  obtain ⟨a, ha, -⟩ := h.segue (J := fun _ _ => True) (fun _ h => h) (fun _ _ h => h.1)
    (fun _ _ h => h.2) (fun _ _ => trivial) (fun _ _ _ _ _ _ _ _ _ _ _ _ _ => trivial)
    (fun _ _ _ _ _ _ => trivial) (fun _ _ _ _ _ _ _ _ _ _ _ _ => trivial)
  obtain ⟨b, hb, hmb, hposti⟩ := Rimane.corsa hrun ha hm
  rw [← hl.unique (ha.rappr.coda i)] at hposti
  constructor
  · intro l' hl'
    rw [hl'.unique (hb.rappr.coda i)]
    exact hposti
  · intro e z hp hy hz
    obtain ⟨p, ts, c, he, hts, hr, hc⟩ := hb.passo (fun _ _ h => h.1) (fun _ _ h => h.2) hp
    obtain ⟨m, hm'⟩ := Option.isSome_iff_exists.mp hmb
    obtain ⟨hs, h0⟩ := (hb.posto hm' he hts hr (hb.attende.mp hy)).2 (hc.attende.not.mp hz)
    refine ⟨hs, ?_⟩
    omega

/-- `q` is the first or the second of the queue. -/
def Davanti (i : Fin MAXSEMS) (q : Pid) (s : Kernel) : Prop :=
  (s.dessem i).coda = some q ∨ ∃ r, (s.dessem i).coda = some r ∧ successore s.des r = some q

instance (i : Fin MAXSEMS) (q : Pid) (s : Kernel) : Decidable (Davanti i q s) :=
  inferInstanceAs (Decidable (_ ∨ _))

theorem Segue.davanti {x : Sistema} {a : Astratto} {i : Fin MAXSEMS} {q : Pid} (h : Segue x a)
    (hd : Davanti i q x.kernel) : x.kernel.Attende i q := by
  have hl := h.rappr.coda i
  refine ⟨_, hl, ?_⟩
  rcases hd with hq | ⟨r, hr, hq⟩
  · exact List.mem_of_mem_head? (hl.head_eq.symm.trans hq)
  · rw [hr] at hl
    generalize (a.sem i).coda = l at hl ⊢
    cases hl with
    | cons hrest =>
      exact List.mem_cons_of_mem r (List.mem_of_mem_head? (hrest.head_eq.symm.trans hq))

/-- The entries after which `q` is the first or the second of the queue. -/
def RegolatoDavanti (i : Fin MAXSEMS) (q : Pid) (x : Sistema) (e : Evento) : Prop :=
  Regolato x e ∧ Davanti i q x.kernel ∧ (passo x.kernel e).toOption.any fun t => Davanti i q t

instance (i : Fin MAXSEMS) (q : Pid) (x : Sistema) (e : Evento) :
    Decidable (RegolatoDavanti i q x e) := inferInstanceAs (Decidable (_ ∧ _))

/-- Of four processes the second waits, the first overtakes it, and two signals are made. -/
theorem attesa_semaforo_corsa : ∃ x zs y e z, (∃ es, Sistema.Raggiunge InteriAvvio Regolato es x) ∧
    Run (Rimane 19 2) x zs y ∧ Sistema.Passo Regolato y e z ∧ ¬ z.kernel.Attende 19 2 ∧
      segnali 19 zs = 1 ∧ sorpassi 19 2 zs = 1 := by
  obtain ⟨x, hx, hP⟩ := Sistema.prova_raggiunge (B := InteriAvvio) (G := Regolato)
    [.attiva 0x7000 0 5 3 0x5010 0x5014 (pila 0x20000),
      .attiva 0x7100 0 10 3 0x5018 0x501c (pila 0x22000),
      .attiva 0x7200 0 12 3 0x5020 0x5024 (pila 0x24000),
      .attiva 0x7300 0 20 3 0x5028 0x502c (pila 0x26000)]
    [.chiamata (.delay 50 1), .chiamata (.semIni 0 0x6000 0x6004), .chiamata (.semWait 19)]
    (fun x => decide ((x.storia 19).isSome ∧ (x.kernel.dessem 19).coda = some 2) &&
      (exec (Sistema.tenta (RegolatoDavanti 19 2)) x
        [.tick, .chiamata (.semWait 19), .chiamata (.semWait 19), .chiamata (.semSignal 19)]).any
        fun (y : Sistema) => decide (Davanti 19 2 y.kernel) &&
          (Sistema.tenta Regolato y (.chiamata (.semSignal 19))).any fun (z : Sistema) =>
            decide ((z.kernel.dessem 19).coda = some 3 ∧ successore z.kernel.des 3 = none))
    (by decide +kernel)
  obtain ⟨hx0, hany⟩ := Bool.and_eq_true_iff.mp hP
  obtain ⟨hm, hcoda⟩ := of_decide_eq_true hx0
  obtain ⟨y, hy, hany⟩ := Option.any_eq_true _ _ |>.mp hany
  obtain ⟨hdy, hany⟩ := Bool.and_eq_true_iff.mp hany
  obtain ⟨z, hz, hfine⟩ := Option.any_eq_true _ _ |>.mp hany
  obtain ⟨hz3, hznil⟩ := of_decide_eq_true hfine
  obtain ⟨a, ha, -⟩ := hx.segue (J := fun _ _ => True) (fun _ h => h) (fun _ _ h => h.1)
    (fun _ _ h => h.2) (fun _ _ => trivial) (fun _ _ _ _ _ _ _ _ _ _ _ _ _ => trivial)
    (fun _ _ _ _ _ _ => trivial) (fun _ _ _ _ _ _ _ _ _ _ _ _ => trivial)
  have hrun : Run (fun x e y => Sistema.Passo Regolato x e y ∧ x.kernel.Attende 19 2 ∧
      y.kernel.Attende 19 2) x _ y :=
    (exec_run hy).strengthen (I := fun x => ∃ a, Segue x a) (by
      intro x e y hS h
      obtain ⟨a, ha⟩ := hS
      obtain ⟨hposs, ⟨hreg, hd, hd'⟩, heq, hst⟩ := Sistema.tenta_passo h
      have hp : Sistema.Passo Regolato x e y := ⟨hposs, hreg, heq, hst⟩
      obtain ⟨p, ts, b, -, -, -, hb⟩ := ha.passo (fun _ _ h => h.1) (fun _ _ h => h.2) hp
      rw [heq] at hd'
      exact ⟨⟨hp, ha.davanti hd, hb.davanti (of_decide_eq_true hd')⟩, b, hb⟩) ⟨a, ha⟩
  obtain ⟨zs, hzs, hrun⟩ := hrun.withStates
  have hlast : ¬ z.kernel.Attende 19 2 := by
    intro hat
    obtain ⟨l, hl, h2⟩ := hat
    rw [hz3] at hl
    cases hl with
    | cons hrest =>
      rw [hznil, Linked.none_iff] at hrest
      subst hrest
      exact absurd h2 (by decide)
  have hl := ha.rappr.coda 19
  have hidx : (a.sem 19).coda.idxOf 2 = 0 := by
    rw [hcoda] at hl
    generalize (a.sem 19).coda = l at hl ⊢
    cases hl with
    | cons _ => exact List.idxOf_cons_self
  have hsegnali : segnali 19 zs = 1 := by
    have hmap : segnali 19 zs = (zs.map Prod.snd).countP (Evento.segnala 19) := by
      rw [List.countP_map]
      rfl
    rw [hmap, hzs]
    decide
  have hp := Sistema.tenta_passo hz
  have hyA : y.kernel.Attende 19 2 := by
    obtain ⟨b, hb, -⟩ := Rimane.corsa hrun ha hm
    exact hb.davanti (of_decide_eq_true hdy)
  have hfin := ((attesa_semaforo _ x hx 19 hm 2 _ hl zs y hrun).2 _ z hp hyA hlast).2
  refine ⟨x, zs, y, _, z, ⟨_, hx⟩, hrun, hp, hlast, hsegnali, ?_⟩
  omega

end Pitos
