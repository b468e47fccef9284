import Pitos.Refinement.Annotation

/-!
# A signal takes somebody from the queue

`ki_sem_signal` takes the sign of `count` for what the queue holds. A `Conto` is the history of
a semaphore: its initial value and how often it was waited for and signalled. `segnali_serviti`
says by the history alone when the sign can be trusted: a semaphore that began with a negative
value has fewer waiters than `count` says, so a signal needs an earlier wait; one that began with
zero or more needs only that `count` does not wrap.
-/

namespace Pitos

open Lib

/-- The history of a semaphore since `ki_sem_ini`. -/
structure Conto where
  valore : Int
  attese : Nat
  segnali : Nat
  deriving DecidableEq, Repr

namespace Conto

/-- The number that the waits and the signals make of the initial value. -/
def netto (c : Conto) : Int := c.valore - c.attese + c.segnali

/-- A signal meets the condition. -/
def Cauto (c : Conto) : Prop :=
  if 0 ≤ c.valore then c.netto < INT_MAX else c.segnali < c.attese

instance (c : Conto) : Decidable c.Cauto := by
  unfold Cauto
  infer_instance

/-- A wait is counted unless `count` wraps. -/
def aspetta (c : Conto) : Option Conto :=
  if -2 ^ 31 < c.netto then some { c with attese := c.attese + 1 } else none

/-- A signal is counted if it meets the condition. -/
def segnala (c : Conto) : Option Conto :=
  if c.Cauto then some { c with segnali := c.segnali + 1 } else none

end Conto

/-- The histories whose steps all met the condition. -/
abbrev Conti := Fin MAXSEMS → Option Conto

def apri (s : Kernel) (valore : Int) (h : Conti) : Conti :=
  match s.cercaSem with
  | none => h
  | some i => Function.update h i (if Intero valore then some ⟨valore, 0, 0⟩ else none)

/-- An operation on the history of the semaphore that the handle selects. -/
def muovi (f : Conto → Option Conto) (hsem : Int) (h : Conti) : Conti :=
  match maniglia hsem with
  | none => h
  | some i => Function.update h i ((h i).bind f)

def conti : Annotazione Conti where
  inizio _ := fun _ => none
  avvio s v _ h :=
    match v with
    | .semIni valore _ _ => apri s valore h
    | .attiva .. => h
  evento s e _ h :=
    match e with
    | .chiamata (.semIni valore _ _) => apri s valore h
    | .chiamata (.semWait hsem) => muovi Conto.aspetta hsem h
    | .chiamata (.semSignal hsem) => muovi Conto.segnala hsem h
    | _ => h

/-- A signal that finds `count <= 0` after its increment takes a process from the queue. -/
def Pesca (s : Kernel) (i : Fin MAXSEMS) : Prop :=
  int32 ((s.dessem i).count + 1) ≤ 0 → (rimozioneCoda s.des (s.dessem i).coda).2.2 ≠ none

/-! ## The queue and the history -/

/-- What the history says of the semaphore. -/
structure Quadra (c : Conto) (x : Semaforo) : Prop where
  valore : Intero c.valore
  count : x.count = c.netto
  intero : Intero x.count
  minimo : c.valore < 0 → c.segnali ≤ c.attese
  coda : (x.coda.length : Int) = max 0 (min c.valore 0 - x.count)

/-- The move is a signal to semaphore `i`. -/
def Atto.Segnale (i : Fin MAXSEMS) (t : Atto) : Prop :=
  t = .libera i ∨ ∃ q p, t = .sveglia i q ∨ t = .cede i p q

/-- The move is a wait on semaphore `i`. -/
def Atto.Attesa (i : Fin MAXSEMS) (t : Atto) : Prop := t = .passa i ∨ ∃ p, t = .blocca i p

section

variable {a b : Astratto} {t : Atto} {ts : List Atto} {i : Fin MAXSEMS} {c c' : Conto}

/-- What a signal does to its semaphore. -/
theorem Mossa.segnale_sem (hm : Mossa a t b) (ht : t.Segnale i) :
    (b.sem i).count = int32 ((a.sem i).count + 1) ∧
      (((0 < int32 ((a.sem i).count + 1) ∨ (a.sem i).coda = []) ∧
          (b.sem i).coda = (a.sem i).coda) ∨
        (int32 ((a.sem i).count + 1) ≤ 0 ∧ (a.sem i).coda.length = (b.sem i).coda.length + 1)) := by
  rcases ht with rfl | ⟨q, p, rfl | rfl⟩
  · cases hm with
    | libera _ hc => simp [Astratto.setCount, Astratto.setSem, hc]
  · cases hm with
    | sveglia _ p' _ l he hc hq hprec =>
      simp [Astratto.accoda, Astratto.setCoda, Astratto.setCount, Astratto.setSem, hc, hq]
  · cases hm with
    | cede _ _ _ l he hc hq hprec =>
      simp [Astratto.accoda, Astratto.setCoda, Astratto.setCount, Astratto.setSem,
        Astratto.setEsecuzione, Astratto.aggiorna, hc, hq]

/-- What a wait does. -/
theorem Mossa.attesa_sem (hm : Mossa a t b) (ht : t.Attesa i) :
    (b.sem i).count = int32 ((a.sem i).count - 1) ∧
      ((0 ≤ int32 ((a.sem i).count - 1) ∧ (b.sem i).coda = (a.sem i).coda) ∨
        (int32 ((a.sem i).count - 1) < 0 ∧
          (b.sem i).coda.length = (a.sem i).coda.length + 1)) := by
  rcases ht with rfl | ⟨p, rfl⟩
  · cases hm with
    | passa _ hc => simp [Astratto.setCount, Astratto.setSem, hc]
  · cases hm with
    | blocca _ _ he hp hc =>
      simp [Astratto.setCoda, Astratto.setCount, Astratto.setSem, hc]

namespace Quadra

theorem ini {valore : Int} (hv : Intero valore) (hm : Mossa a (.semIni i valore) b) :
    Quadra ⟨valore, 0, 0⟩ (b.sem i) := by
  cases hm with
  | semIni _ _ hbusy =>
    have hsem : (a.setSem i { coda := [], count := valore, busy := true }).sem i =
        { coda := [], count := valore, busy := true } := Function.update_self _ _ _
    rw [hsem]
    refine ⟨hv, ?_, hv, fun _ => le_rfl, ?_⟩
    · simp only [Conto.netto]
      omega
    · simp only [List.length_nil]
      omega

/-- A wait that does not wrap: who finds no permit stands in the queue. -/
theorem aspetta (h : Quadra c (a.sem i)) (hm : Mossa a t b) (ht : t.Attesa i)
    (hc : c.aspetta = some c') : Quadra c' (b.sem i) := by
  unfold Conto.aspetta at hc
  split at hc
  · rename_i hlt
    obtain rfl := Option.some.inj hc
    obtain ⟨hmin, hmax⟩ := h.intero
    have hcount := h.count
    have hcoda := h.coda
    have hminimo := h.minimo
    have hint : int32 ((a.sem i).count - 1) = (a.sem i).count - 1 :=
      int32_of_range (by omega) (by omega)
    have hsem := hm.attesa_sem ht
    rw [hint] at hsem
    obtain ⟨hcount', hcoda'⟩ := hsem
    simp only [Conto.netto] at hcount hlt
    refine ⟨h.valore, ?_, ⟨by omega, by omega⟩, fun hv => ?_, ?_⟩
    · simp only [Conto.netto]
      omega
    · have hle := hminimo hv
      simp only
      omega
    · simp only
      rcases hcoda' with ⟨hge, heq⟩ | ⟨hneg, heq⟩
      · rw [heq]
        omega
      · rw [heq]
        omega
  · cases hc

/-- A signal that meets the condition does not wrap either. -/
theorem int32_count (h : Quadra c (a.sem i)) (hc : c.Cauto) :
    int32 ((a.sem i).count + 1) = (a.sem i).count + 1 := by
  obtain ⟨hmin, hmax⟩ := h.intero
  have hcount := h.count
  have hmax0 : (0 : Int) ≤ INT_MAX := by decide
  unfold Conto.Cauto at hc
  simp only [Conto.netto] at hcount hc
  apply int32_of_range (by omega)
  split at hc <;> omega

theorem segnala (h : Quadra c (a.sem i)) (hm : Mossa a t b) (ht : t.Segnale i)
    (hc : c.segnala = some c') : Quadra c' (b.sem i) := by
  unfold Conto.segnala at hc
  split at hc
  · rename_i hcauto
    obtain rfl := Option.some.inj hc
    have hint := h.int32_count hcauto
    obtain ⟨hmin, hmax⟩ := h.intero
    have hcount := h.count
    have hcoda := h.coda
    have hsem := hm.segnale_sem ht
    rw [hint] at hsem
    obtain ⟨hcount', hcoda'⟩ := hsem
    have hmax0 : (0 : Int) ≤ INT_MAX := by decide
    unfold Conto.Cauto at hcauto
    simp only [Conto.netto] at hcount hcauto
    have hle : (a.sem i).count + 1 ≤ INT_MAX := by
      split at hcauto <;> omega
    refine ⟨h.valore, ?_, ⟨by omega, by omega⟩, fun hv => ?_, ?_⟩
    · simp only [Conto.netto]
      omega
    · rw [if_neg (by simpa using hv)] at hcauto
      simp only
      omega
    · simp only
      rcases hcoda' with ⟨hge, heq⟩ | ⟨hneg, heq⟩
      · rw [heq]
        rcases hge with hge | hnil
        · split at hcauto <;> omega
        · rw [hnil, List.length_nil] at hcoda ⊢
          split at hcauto <;> omega
      · split at hcauto <;> omega
  · cases hc

/-- **The sign of `count`.** It says that somebody waits exactly when the signal meets the
condition. -/
theorem pesca_iff (h : Quadra c (a.sem i)) :
    (int32 ((a.sem i).count + 1) ≤ 0 → (a.sem i).coda ≠ []) ↔ c.Cauto := by
  have hcount := h.count
  have hcoda := h.coda
  simp only [Conto.netto] at hcount
  constructor
  · intro hpesca
    by_contra hn
    have hvuota : (a.sem i).coda = [] := by
      apply List.eq_nil_of_length_eq_zero
      unfold Conto.Cauto at hn
      simp only [Conto.netto] at hn
      have hmin := h.minimo
      have hmax0 : (0 : Int) ≤ INT_MAX := by decide
      split at hn <;> omega
    refine hpesca ?_ hvuota
    by_cases hv : 0 ≤ c.valore
    · have hmax := h.intero.2
      unfold Conto.Cauto at hn
      rw [if_pos hv] at hn
      simp only [Conto.netto] at hn
      have heq : (a.sem i).count = INT_MAX := by omega
      rw [heq]
      decide
    · have hmin := h.minimo (by omega)
      have hneg : (a.sem i).count + 1 ≤ 0 := by omega
      rw [int32_of_range (by have := h.intero.1; omega) (by
        have hmax0 : (0 : Int) ≤ INT_MAX := by decide
        omega)]
      exact hneg
  · intro hc hle hnil
    rw [h.int32_count hc] at hle
    rw [hnil, List.length_nil] at hcoda
    unfold Conto.Cauto at hc
    simp only [Conto.netto] at hc
    split at hc <;> omega

end Quadra

/-! ## The runs -/

/-- Every history says what its semaphore holds. -/
def Quadrano (a : Astratto) (h : Conti) : Prop := ∀ i c, h i = some c → Quadra c (a.sem i)

namespace Quadrano

variable {s : Kernel} {h : Conti} {p : Pid}

/-- Moves that are about no semaphore. -/
theorem run (hT : Quadrano a h) (hr : Run Mossa a ts b) (ht : ∀ t ∈ ts, ∀ i, ¬ t.riguarda i) :
    Quadrano b h := by
  induction hr with
  | nil => exact hT
  | cons hm _ ih =>
    refine ih (fun i c hc => ?_) fun t h => ht t (List.mem_cons_of_mem _ h)
    rw [hm.sem_eq (ht _ List.mem_cons_self i)]
    exact hT i c hc

theorem apri (hT : Quadrano a h) {valore : Int} (hc : s.cercaSem = some i)
    (hm : Mossa a (.semIni i valore) b) : Quadrano b (apri s valore h) := by
  intro j c hj
  simp only [Pitos.apri, hc] at hj
  by_cases hji : j = i
  · subst hji
    rw [Function.update_self] at hj
    split at hj
    · rename_i hv
      obtain rfl := Option.some.inj hj
      exact .ini hv hm
    · cases hj
  · rw [Function.update_of_ne hji] at hj
    rw [hm.sem_eq fun e => hji e.symm]
    exact hT j c hj

/-- An operation on one history that is a move on its semaphore. -/
theorem muovi {f : Conto → Option Conto} {hsem : Int} (hT : Quadrano a h)
    (hi : maniglia hsem = some i) (hm : Mossa a t b) (ht : ∀ j, j ≠ i → ¬ t.riguarda j)
    (hf : ∀ c c', Quadra c (a.sem i) → f c = some c' → Quadra c' (b.sem i)) :
    Quadrano b (muovi f hsem h) := by
  intro j c hj
  simp only [Pitos.muovi, hi] at hj
  by_cases hji : j = i
  · subst hji
    rw [Function.update_self] at hj
    obtain ⟨c₀, hc₀, hc⟩ := Option.bind_eq_some_iff.mp hj
    exact hf c₀ c (hT j c₀ hc₀) hc
  · rw [Function.update_of_ne hji] at hj
    rw [hm.sem_eq (ht j hji)]
    exact hT j c hj

/-- A system call. -/
theorem chiamata (hT : Quadrano a h) {c : Chiamata} {s' : Kernel} (ht : Compie s p c t)
    (hm : Mossa a t b) : Quadrano b (conti.evento s (.chiamata c) s' h) := by
  have haltrove : (∀ j, ¬ t.riguarda j) → Quadrano b h := fun ht => by
    intro j c hj
    rw [hm.sem_eq (ht j)]
    exact hT j c hj
  cases c with
  | semIni valore idx risu =>
    show Quadrano b (Pitos.apri s valore h)
    cases hc : s.cercaSem with
    | none =>
      simp only [Compie, hc] at ht
      subst ht
      rw [Pitos.apri, hc]
      exact haltrove fun j => id
    | some i =>
      simp only [Compie, hc] at ht
      subst ht
      exact hT.apri hc hm
  | semWait hsem =>
    show Quadrano b (Pitos.muovi Conto.aspetta hsem h)
    cases hi : maniglia hsem with
    | none =>
      simp only [Compie, hi] at ht
      subst ht
      rw [Pitos.muovi, hi]
      exact haltrove fun j => id
    | some i =>
      simp only [Compie, hi] at ht
      have hattesa : t.Attesa i := Or.imp_right (Exists.intro p) ht
      refine hT.muovi hi hm (fun j hj => ?_) fun c c' hc => hc.aspetta hm hattesa
      rcases ht with rfl | rfl <;> exact fun e => hj e.symm
  | semSignal hsem =>
    show Quadrano b (Pitos.muovi Conto.segnala hsem h)
    cases hi : maniglia hsem with
    | none =>
      simp only [Compie, hi] at ht
      subst ht
      rw [Pitos.muovi, hi]
      exact haltrove fun j => id
    | some i =>
      simp only [Compie, hi] at ht
      have hsegnale : t.Segnale i := by
        rcases ht with hlibera | ⟨q, hq⟩
        · exact Or.inl hlibera
        · exact Or.inr ⟨q, p, hq⟩
      refine hT.muovi hi hm (fun j hj => ?_) fun c c' hc => hc.segnala hm hsegnale
      rcases ht with rfl | ⟨q, rfl | rfl⟩ <;> exact fun e => hj e.symm
  | activateP f k prec idx risu stk =>
    apply haltrove
    intro j
    rcases ht with rfl | ⟨q, rfl⟩ <;> exact id
  | delay n z =>
    apply haltrove
    intro j
    rw [show t = .dorme (n.tdiv 50) (z, p) from ht]
    exact id
  | terminateP =>
    apply haltrove
    intro j
    rw [show t = .termina p from ht]
    exact id
  | _ =>
    apply haltrove
    intro j
    rw [show t = .dati from ht]
    exact id

/-- An entry. -/
theorem evento (hT : Quadrano a h) {e : Evento} {s' : Kernel} (hts : Traccia s p e ts)
    (hr : Run Mossa a ts b) : Quadrano b (conti.evento s e s' h) := by
  cases e with
  | chiamata c =>
    obtain ⟨t, sig, ht, hsig, rfl⟩ := hts
    cases hr with
    | cons hm hr => exact (hT.chiamata ht hm).run hr fun t h i => hsig.riguarda t h
  | chiamataErrata =>
    apply hT.run hr
    rw [show ts = [] from hts]
    exact fun t h => absurd h List.not_mem_nil
  | tick => exact hT.run hr fun t h i => hts.riguarda t h
  | tasto code => exact hT.run hr fun t h i => tasto_riguarda hts t h
  | eccezione =>
    apply hT.run hr
    intro t h i
    rw [show ts = [.termina p] from hts, List.mem_singleton] at h
    subst h
    exact id
  | ritorno => exact absurd hts id

/-- A call of `cmain`. -/
theorem avvio (hT : Quadrano a h) {v : Avvio} {s' : Kernel} (hts : TracciaAvvio s v ts)
    (hr : Run Mossa a ts b) : Quadrano b (conti.avvio s v s' h) := by
  cases v with
  | attiva f k prec level idx risu stk =>
    apply hT.run hr
    intro t ht i
    rcases hts with rfl | ⟨q, rfl⟩
    · exact absurd ht List.not_mem_nil
    · rw [List.mem_singleton.mp ht]
      exact id
  | semIni valore idx risu =>
    show Quadrano b (Pitos.apri s valore h)
    cases hc : s.cercaSem with
    | none =>
      simp only [TracciaAvvio, hc] at hts
      subst hts
      cases hr
      rw [Pitos.apri, hc]
      exact hT
    | some i =>
      simp only [TracciaAvvio, hc] at hts
      subst hts
      cases hr with
      | cons hm hnil =>
        cases hnil
        exact hT.apri hc hm

end Quadrano

end

/-- **A signal takes somebody from the queue.** In every run in which the idle process lives,
on a semaphore whose waits and signals met the condition so far, the next signal can trust
`count` exactly when it meets the condition too. -/
theorem segnali_serviti (es : List Evento) (x : Kernel × Conti)
    (h : conti.Raggiunge IdleVivo es x) (i : Fin MAXSEMS) (c : Conto) (hc : x.2 i = some c) :
    Pesca x.1 i ↔ c.Cauto := by
  obtain ⟨a, hR, -, hT⟩ := h.segue (J := fun _ a h => Quadrano a h) (fun _ _ hv => hv)
    (fun _ _ _ _ _ _ _ _ _ _ _ _ hj => by cases hj)
    (fun _ _ _ _ _ _ _ _ _ _ hts hr _ hT => hT.avvio hts hr)
    (fun _ _ _ _ _ _ _ _ _ hm _ hT => hT.run (Run.single hm) fun t ht i => by
      rw [List.mem_singleton.mp ht]
      exact id)
    (fun _ _ _ _ _ _ _ _ _ _ _ _ _ _ hts hr _ hT => hT.evento hts hr)
  rw [← (hT i c hc).pesca_iff, Pesca, hR.count]
  have hcoda := hR.coda i
  cases hhead : (x.1.dessem i).coda with
  | none =>
    rw [hhead, Linked.none_iff] at hcoda
    simp [rimozioneCoda, hcoda]
  | some q =>
    rw [hhead] at hcoda
    have hne : (a.sem i).coda ≠ [] := fun hnil => by
      rw [hnil, Linked.nil_iff] at hcoda
      cases hcoda
    simp [rimozioneCoda, hne]

/-- A semaphore that begins with -1, on which two processes wait. -/
theorem segnali_serviti_corsa : ∃ x, conti.Raggiunge IdleVivo
    [.chiamata (.semIni (-1) 0x6000 0x6004), .chiamata (.semWait 19), .chiamata (.semWait 19),
      .tick] x ∧ Pesca x.1 19 := by
  obtain ⟨x, hx, hP⟩ := Annotazione.prova_raggiunge (A := conti) (G := IdleVivo)
    [.attiva 0x7000 0 10 3 0x5010 0x5014 (pila 0x20000),
      .attiva 0x7100 0 12 3 0x5018 0x501c (pila 0x22000)]
    [.chiamata (.semIni (-1) 0x6000 0x6004), .chiamata (.semWait 19), .chiamata (.semWait 19),
      .tick]
    (fun x => x.2 19 = some ⟨-1, 2, 0⟩) (by decide +kernel)
  exact ⟨x, hx, (segnali_serviti _ x hx 19 _ (of_decide_eq_true hP)).mpr (by decide)⟩

/-- The first signal to such a semaphore takes a process from the empty queue. -/
theorem segnale_a_vuoto : ∃ x, conti.Raggiunge IdleVivo
    [.chiamata (.semIni (-1) 0x6000 0x6004)] x ∧ ¬ Pesca x.1 19 := by
  obtain ⟨x, hx, hP⟩ := Annotazione.prova_raggiunge (A := conti) (G := IdleVivo)
    [.attiva 0x7000 0 10 3 0x5010 0x5014 (pila 0x20000)]
    [.chiamata (.semIni (-1) 0x6000 0x6004)]
    (fun x => int32 ((x.1.dessem 19).count + 1) ≤ 0 ∧ (x.1.dessem 19).coda = none)
    (by decide +kernel)
  obtain ⟨hcount, hcoda⟩ := of_decide_eq_true hP
  refine ⟨x, hx, fun hpesca => hpesca hcount ?_⟩
  rw [hcoda]
  rfl

end Pitos
