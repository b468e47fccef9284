import Pitos.Lib.AlarmClock
import Pitos.Refinement.Execution

/-!
# The timer queue is an alarm clock

`sveglie_esatte`: whatever requests with a positive wait `inserimento_coda_timer` inserts and
whatever the kernel does in between, as long as it leaves the queue to these two functions,
`cdriver_t` removes each request at the tick it was inserted for, wakes its process and deletes
the record, and removes no other. `pause_puntuali` says the same of `ki_delay` as long as every
call asks for a full tick at least. A call that asks for less is inserted with a wait that is
not positive, and the countdown passes it by: nobody is woken any more (`pausa_breve`).
-/

namespace Pitos

open Lib AlarmClock

/-! ## What the rest of the kernel leaves alone -/

/-- The timer queue and its records are the same. -/
def StessaCoda (s t : Kernel) : Prop :=
  t.desTimer = s.desTimer ∧ t.ric = s.ric ∧ t.vive = s.vive

namespace StessaCoda

variable {s t u : Kernel} {p : DesPtr}

theorem refl (s : Kernel) : StessaCoda s s := ⟨rfl, rfl, rfl⟩

theorem trans (h : StessaCoda s t) (h' : StessaCoda t u) : StessaCoda s u :=
  ⟨h'.1.trans h.1, h'.2.1.trans h.2.1, h'.2.2.trans h.2.2⟩

theorem aggiorna (s : Kernel) (p : DesPtr) (f : DesProc → DesProc) :
    StessaCoda s (s.aggiorna p f) := ⟨rfl, rfl, rfl⟩

theorem schedulatore (s : Kernel) : StessaCoda s (schedulatore s) := by
  unfold Pitos.schedulatore
  cases s.pronti with
  | none => exact refl s
  | some p =>
    simp only
    split <;> exact ⟨rfl, rfl, rfl⟩

theorem inserisciPronti (h : s.inserisciPronti p = .ok t) : StessaCoda s t := by
  unfold Kernel.inserisciPronti at h
  split at h
  · cases h
  · obtain rfl := Except.ok.inj h
    exact ⟨rfl, rfl, rfl⟩

theorem reinserisci {pp : List Pid} (h : reinserisci s pp = .ok t) : StessaCoda s t := by
  induction pp generalizing s with
  | nil =>
    obtain rfl := Except.ok.inj h
    exact refl s
  | cons p pp ih =>
    unfold Pitos.reinserisci at h
    cases hp : s.inserisciPronti (some p) with
    | error e =>
      rw [hp] at h
      cases h
    | ok s₁ =>
      rw [hp] at h
      exact (inserisciPronti hp).trans (ih h)

theorem reschedule (h : reschedule s = .ok t) : StessaCoda s t := by
  unfold Pitos.reschedule at h
  split at h
  · cases h
  · exact (reinserisci h : StessaCoda { s with des := _, pronti := none } t)

theorem kiTerminateP (h : kiTerminateP s = .ok t) : StessaCoda s t := by
  unfold Pitos.kiTerminateP at h
  simp only at h
  split at h
  · cases h
  · obtain rfl := Except.ok.inj h
    exact schedulatore _

theorem handlesignals (h : handlesignals s = .ok t) : StessaCoda s t := by
  unfold Pitos.handlesignals at h
  split at h
  · cases h
  · split at h
    · simp only at h
      split at h
      · obtain rfl := Except.ok.inj h
        exact ⟨rfl, rfl, rfl⟩
      · split at h
        · split at h
          · exact (aggiorna s s.esecuzione _).trans (kiTerminateP h)
          · obtain rfl := Except.ok.inj h
            exact ⟨rfl, rfl, rfl⟩
        · split at h
          · obtain rfl := Except.ok.inj h
            exact ⟨rfl, rfl, rfl⟩
          · obtain rfl := Except.ok.inj h
            exact ⟨rfl, rfl, rfl⟩
    · obtain rfl := Except.ok.inj h
      exact refl s

theorem addebita (h : addebita s = .ok t) : StessaCoda s t := by
  unfold Pitos.addebita at h
  simp only at h
  split at h
  · exact (aggiorna s s.esecuzione _).trans (handlesignals h)
  · obtain rfl := Except.ok.inj h
    exact ⟨rfl, rfl, rfl⟩

theorem turno (h : turno s = .ok t) : StessaCoda s t := by
  unfold Pitos.turno at h
  simp only at h
  split at h
  · rename_i hr
    obtain ⟨s₁, h₁, h⟩ := bind_ok h
    obtain ⟨s₂, h₂, h⟩ := bind_ok h
    obtain rfl := Except.ok.inj h
    exact ((inserisciPronti h₁).trans (reschedule h₂)).trans (schedulatore s₂)
  · split at h
    · obtain ⟨s₁, h₁, h⟩ := bind_ok h
      obtain rfl := Except.ok.inj h
      exact (inserisciPronti h₁).trans (schedulatore s₁)
    · obtain rfl := Except.ok.inj h
      exact ⟨rfl, rfl, rfl⟩

/-- Behind the timer part `cdriver_t` leaves the queue alone. -/
theorem cdriverT (h : cdriverT s = .ok t) : ∃ s₁, scadenze s = .ok s₁ ∧ StessaCoda s₁ t := by
  obtain ⟨s₁, h₁, h⟩ := bind_ok h
  obtain ⟨s₂, h₂, h⟩ := bind_ok h
  exact ⟨s₁, h₁, (addebita h₂).trans (turno h)⟩

end StessaCoda

/-! ## Runs -/

/-- An alarm queue that has no wait out of range. -/
structure Sveglie (s : Kernel) (l : List ((Addr × Pid) × Int)) : Prop where
  dormono : Dormono s l
  heap : s.vive.Perm (l.map fun r => r.1.1)
  pronta : Ready l
  massimo : ∀ r ∈ l, r.2 ≤ INT_MAX

/-- Something happens to the timer queue, and then whatever leaves it alone. -/
def Kernel.Opera (s : Kernel) : Op (Addr × Pid) → Kernel → Prop
  | .set x d, t => x.1 ∉ s.vive ∧ 1 ≤ d ∧ d ≤ INT_MAX ∧
    ∃ s', inserimentoCodaTimer x.1 (s.nuova x d) = .ok s' ∧ StessaCoda s' t
  | .tick, t => ∃ s', cdriverT s = .ok s' ∧ StessaCoda s' t

section

variable {s t : Kernel} {l : List ((Addr × Pid) × Int)} {x : Addr × Pid} {d : Int}

/-- Without overflow the insertion is that of a delta queue. -/
theorem inserisciAttesa_eq (hl : Nonneg l) (hmax : ∀ r ∈ l, r.2 ≤ INT_MAX) (hd : 0 ≤ d)
    (hd' : d ≤ INT_MAX) (x : Addr × Pid) : inserisciAttesa d x l = insertDelta d x l := by
  induction l generalizing d with
  | nil => rfl
  | cons r l ih =>
    obtain ⟨y, e⟩ := r
    have he : 0 ≤ e := hl (y, e) List.mem_cons_self
    have he' : e ≤ INT_MAX := hmax (y, e) List.mem_cons_self
    unfold inserisciAttesa insertDelta
    by_cases hlt : e < d
    · rw [if_pos hlt, if_pos hlt, int32_of_range (by omega) (by omega),
        ih (fun r hr => hl r (List.mem_cons_of_mem _ hr))
          (fun r hr => hmax r (List.mem_cons_of_mem _ hr)) (by omega) (by omega)]
    · rw [if_neg hlt, if_neg hlt, int32_of_range (by omega) (by omega)]

theorem scalaAttesa_eq (hl : Ready l) (hmax : ∀ r ∈ l, r.2 ≤ INT_MAX) :
    scalaAttesa l = tickDown l := by
  cases l with
  | nil => rfl
  | cons r l =>
    obtain ⟨y, e⟩ := r
    have he : 1 ≤ e := hl.head (y, e) rfl
    have he' : e ≤ INT_MAX := hmax (y, e) List.mem_cons_self
    simp only [scalaAttesa, tickDown]
    rw [int32_of_range (by omega) (by omega)]

/-- The wake-ups of a tick delete the records one by one. -/
theorem risvegli_ok (h : l.foldlM (fun s r => s.risveglia r.1) s = .ok t) :
    t.ric = s.ric ∧ t.desTimer = s.desTimer ∧ t.vive = s.vive.diff (l.map fun r => r.1.1) := by
  induction l generalizing s with
  | nil =>
    obtain rfl := Except.ok.inj h
    exact ⟨rfl, rfl, rfl⟩
  | cons r l ih =>
    rw [List.foldlM_cons] at h
    obtain ⟨s₁, h₁, h⟩ := bind_ok h
    obtain ⟨hric, htimer, hvive⟩ := risveglia_ok h₁
    obtain ⟨hric', htimer', hvive'⟩ := ih h
    refine ⟨hric'.trans hric, htimer'.trans htimer, ?_⟩
    rw [hvive', hvive, List.map_cons, List.diff_cons]

namespace Sveglie

theorem coda (h : Sveglie s l) (hs : StessaCoda s t) : Sveglie t l := by
  refine ⟨h.dormono.congr hs.2.1 hs.1, ?_, h.pronta, h.massimo⟩
  rw [hs.2.2]
  exact h.heap

theorem vuota (htimer : s.desTimer = none) (hvive : s.vive = []) : Sveglie s [] := by
  refine ⟨⟨?_, fun r hr => absurd hr List.not_mem_nil, fun r hr => absurd hr List.not_mem_nil⟩, ?_,
    ⟨fun r hr => absurd hr List.not_mem_nil, fun r hr => by cases hr⟩,
    fun r hr => absurd hr List.not_mem_nil⟩
  · rw [htimer]
    exact Linked.nil
  · rw [hvive]
    exact List.Perm.refl _

/-- An insertion. -/
theorem inserimento (h : Sveglie s l) (hx : x.1 ∉ s.vive) (hd : 1 ≤ d) (hd' : d ≤ INT_MAX) :
    ∃ t, inserimentoCodaTimer x.1 (s.nuova x d) = .ok t ∧ Sveglie t (insertDelta d x l) := by
  have hlen := h.heap.length_eq
  rw [List.length_map] at hlen
  obtain ⟨ric, timer, heq, hD⟩ := h.dormono.inserimento (fun hm => hx (h.heap.mem_iff.mpr hm))
    hlen.ge d
  rw [inserisciAttesa_eq h.pronta.nonneg h.massimo (by omega) hd'] at hD
  refine ⟨_, heq, hD, ?_, h.pronta.insertDelta hd, insertDelta_le h.pronta.nonneg h.massimo
    (by omega) hd'⟩
  have hperm := (insertDelta_perm d x l).map Prod.fst
  rw [List.map_map, List.map_cons, List.map_map] at hperm
  exact (h.heap.cons x.1).trans hperm.symm

/-- The timer part of a tick. -/
theorem scadenze (h : Sveglie s l) :
    ∃ ric timer, Pitos.scadenze s = (ringing (tickDown l)).foldlM (fun s r => s.risveglia r.1)
        { s with ric := ric, desTimer := timer } ∧
      ∀ t, Pitos.scadenze s = .ok t → Sveglie t (waiting (tickDown l)) := by
  have hlen := h.heap.length_eq
  rw [List.length_map] at hlen
  obtain ⟨ric, h₁, heq⟩ := h.dormono.scadenze hlen.ge
  rw [scalaAttesa_eq h.pronta h.massimo] at h₁ heq
  have hsplit := Astratto.ringing_append_waiting (tickDown l)
  have h₂ := Dormono.suffisso (hsplit.symm ▸ h₁)
  refine ⟨ric, _, heq, ?_⟩
  intro t ht
  obtain ⟨hric, htimer, hvive⟩ := risvegli_ok (heq.symm.trans ht)
  refine ⟨h₂.congr hric htimer, ?_, h.pronta.tick, ?_⟩
  · have hfst : (tickDown l).map (fun r => r.1.1) = l.map fun r => r.1.1 := by
      cases l <;> rfl
    have hperm := h.heap
    rw [← hfst, ← hsplit, List.map_append] at hperm
    rw [hvive]
    exact (hperm.diff_right _).trans (List.Perm.of_eq (Astratto.append_diff_left _ _))
  · intro r hr
    have hmem : r ∈ tickDown l := (waiting_suffix _).subset hr
    cases l with
    | nil => cases hmem
    | cons q l =>
      rcases List.mem_cons.mp hmem with rfl | hmem
      · have := h.massimo q List.mem_cons_self
        simp only
        omega
      · exact h.massimo r (List.mem_cons_of_mem _ hmem)

/-- What happens to the timer queue happens to the alarm clock. -/
theorem opera {p : List ((Addr × Pid) × Int)} {e : Op (Addr × Pid)} (h : Sveglie s l)
    (hp : (due 0 l).Perm p) (hs : s.Opera e t) :
    ∃ l', Sveglie t l' ∧ (due 0 l').Perm (apply p e) := by
  cases e with
  | set x d =>
    obtain ⟨hx, hd, hd', s', heq, hframe⟩ := hs
    obtain ⟨s'', heq', h'⟩ := h.inserimento hx hd hd'
    obtain rfl := Except.ok.inj (heq.symm.trans heq')
    exact ⟨_, h'.coda hframe, due_insert hp d x⟩
  | tick =>
    obtain ⟨s', heq, hframe⟩ := hs
    obtain ⟨s₁, h₁, hframe₁⟩ := StessaCoda.cdriverT heq
    obtain ⟨-, -, -, h'⟩ := h.scadenze
    exact ⟨_, (h' s₁ h₁).coda (hframe₁.trans hframe), due_tickDown h.pronta hp⟩

theorem run {p : List ((Addr × Pid) × Int)} {es : List (Op (Addr × Pid))} (h : Sveglie s l)
    (hp : (due 0 l).Perm p) (hr : Run Kernel.Opera s es t) :
    ∃ l', Sveglie t l' ∧ (due 0 l').Perm (es.foldl apply p) := by
  induction hr generalizing l p with
  | nil => exact ⟨l, h, hp⟩
  | cons hs _ ih =>
    obtain ⟨l₁, h₁, hp₁⟩ := h.opera hp hs
    exact ih h₁ hp₁

end Sveglie

theorem positive_of_run {es : List (Op (Addr × Pid))} (hr : Run Kernel.Opera s es t) :
    Positive es := by
  induction hr with
  | nil => exact fun x d h => absurd h List.not_mem_nil
  | cons hs _ ih =>
    intro x d h
    rcases List.mem_cons.mp h with rfl | h
    · exact hs.2.1
    · exact ih x d h

/-- A request that is over puts its process in `pronti`, if `pronti` ends and does not hold it
already. -/
theorem risvegli_pronti {m : List Pid} (hm : Linked (successore s.des) s.pronti m)
    (hnodup : ((l.map fun r => r.1.2) ++ m).Nodup) :
    ∃ t m', l.foldlM (fun s r => s.risveglia r.1) s = .ok t ∧
      Linked (successore t.des) t.pronti m' ∧ m'.Perm ((l.map fun r => r.1.2) ++ m) := by
  induction l generalizing s m with
  | nil => exact ⟨s, m, rfl, hm, List.Perm.refl _⟩
  | cons r l ih =>
    rw [List.map_cons, List.cons_append, List.nodup_cons] at hnodup
    have hr : r.1.2 ∉ m := fun h => hnodup.1 (List.mem_append_right _ h)
    have hm₁ : Linked (successore (s.aggiorna (some r.1.2) fun d => { d with stato := .PRONTO }).des)
        s.pronti m := hm.congr fun q hq => by
      have hne : q ≠ r.1.2 := fun e => hr (e ▸ hq)
      simp [successore, Kernel.aggiorna, hne]
    obtain ⟨des, coda, heq, hlink, -, -⟩ := inserimentoCoda_eq hm₁ hr
    have hperm := insertByKey_perm
      (fun q => ((s.aggiorna (some r.1.2) fun d => { d with stato := .PRONTO }).des (some q)).prec)
      r.1.2 m
    obtain ⟨t, m', heq', hlink', hperm'⟩ := ih
      (s := { s with des := des, pronti := coda, vive := s.vive.erase r.1.1 }) hlink
      (((hperm.append_left _).trans List.perm_middle).nodup_iff.mpr (List.nodup_cons.mpr hnodup))
    refine ⟨t, m', ?_, hlink', (hperm'.trans (hperm.append_left _)).trans List.perm_middle⟩
    rw [List.foldlM_cons]
    have hris : s.risveglia r.1 =
        .ok { s with des := des, pronti := coda, vive := s.vive.erase r.1.1 } := by
      unfold Kernel.risveglia Kernel.inserisciPronti
      simp only
      rw [show (s.aggiorna (some r.1.2) fun d => { d with stato := .PRONTO }).pronti = s.pronti
        from rfl, heq]
      rfl
    rw [hris]
    exact heq'

end

/-- **The timer queue is exact.** `L` is the queue, `W` are the requests that the next
`cdriver_t` takes off and `R` those it leaves. -/
structure Esatta (es : List (Op (Addr × Pid))) (s : Kernel) (L W R : List (Addr × Pid)) : Prop where
  divisa : L = W ++ R
  coda : Linked s.pric s.desTimer (L.map Prod.fst)
  proc : ∀ x ∈ L, (s.ric x.1).proc = some x.2
  /-- Each record in the queue is allocated once, and no other is allocated. -/
  heap : s.vive.Perm (L.map Prod.fst)
  attende : ∀ x, x ∈ L ↔ ∃ es₁ d es₂, es = es₁ ++ .set x d :: es₂ ∧ (ticks es₂ : Int) < d
  scade : ∀ x, x ∈ W ↔ ∃ es₁ d es₂, es = es₁ ++ .set x d :: es₂ ∧ (ticks es₂ : Int) + 1 = d
  /-- The timer part of `cdriver_t` calls `inserimento_coda` and `delete` once for each of `W`. -/
  risveglia : ∃ ric timer, scadenze s =
    W.foldlM Kernel.risveglia { s with ric := ric, desTimer := timer }
  resta : ∀ t, scadenze s = .ok t →
    Linked t.pric t.desTimer (R.map Prod.fst) ∧ t.vive.Perm (R.map Prod.fst)
  pronti : ∀ m, Linked (successore s.des) s.pronti m → (W.map Prod.snd ++ m).Nodup →
    ∃ t m', scadenze s = .ok t ∧ Linked (successore t.des) t.pronti m' ∧
      m'.Perm (W.map Prod.snd ++ m)

theorem Sveglie.esatta {es : List (Op (Addr × Pid))} {s : Kernel}
    {l : List ((Addr × Pid) × Int)} (h : Sveglie s l) (hes : Positive es)
    (hp : (due 0 l).Perm (pending es)) :
    Esatta es s (l.map Prod.fst) ((ringing (tickDown l)).map Prod.fst)
      ((waiting (tickDown l)).map Prod.fst) := by
  obtain ⟨ric, timer, heq, hdopo⟩ := h.scadenze
  have hfst : (tickDown l).map Prod.fst = l.map Prod.fst := by cases l <;> rfl
  refine ⟨?_, ?_, fun x hx => ?_, ?_, fun x => ?_, fun x => ?_, ⟨ric, timer, ?_⟩, fun t ht => ?_,
    fun m hm hnodup => ?_⟩
  · rw [← List.map_append, Astratto.ringing_append_waiting, hfst]
  · rw [List.map_map]
    exact h.dormono.timer
  · obtain ⟨r, hr, rfl⟩ := List.mem_map.mp hx
    exact h.dormono.proc r hr
  · rw [List.map_map]
    exact h.heap
  · rw [mem_due hp]
    simp only [mem_pending hes]
    constructor
    · rintro ⟨m, es₁, d, es₂, he, hlt, -⟩
      exact ⟨es₁, d, es₂, he, hlt⟩
    · rintro ⟨es₁, d, es₂, he, hlt⟩
      exact ⟨_, es₁, d, es₂, he, hlt, rfl⟩
  · rw [mem_ringing h.pronta hp, mem_pending hes]
    constructor
    · rintro ⟨es₁, d, es₂, he, hlt, h1⟩
      exact ⟨es₁, d, es₂, he, by omega⟩
    · rintro ⟨es₁, d, es₂, he, h1⟩
      exact ⟨es₁, d, es₂, he, by omega, by omega⟩
  · rw [heq, List.foldlM_map]
  · have ht' := hdopo t ht
    rw [List.map_map]
    exact ⟨ht'.dormono.timer, ht'.heap⟩
  · rw [List.map_map] at hnodup ⊢
    obtain ⟨t, m', ht, hlink, hperm⟩ := risvegli_pronti
      (s := { s with ric := ric, desTimer := timer }) hm hnodup
    exact ⟨t, m', heq.trans ht, hlink, hperm⟩

theorem sveglie_esatte (es : List (Op (Addr × Pid))) (s₀ s : Kernel) (htimer : s₀.desTimer = none)
    (hvive : s₀.vive = []) (h : Run Kernel.Opera s₀ es s) : ∃ L W R, Esatta es s L W R := by
  obtain ⟨l, hl, hp⟩ := (Sveglie.vuota htimer hvive).run (p := []) (List.Perm.refl _) h
  exact ⟨_, _, _, hl.esatta (positive_of_run h) hp⟩

/-- The functions, executed. -/
def Kernel.tentaOpera (s : Kernel) : Op (Addr × Pid) → Option Kernel
  | .set x d =>
    if x.1 ∉ s.vive ∧ 1 ≤ d ∧ d ≤ INT_MAX then
      (inserimentoCodaTimer x.1 (s.nuova x d)).toOption
    else none
  | .tick => (cdriverT s).toOption

theorem toOption_some {r : Esito Kernel} {t : Kernel} (h : r.toOption = some t) : r = .ok t := by
  cases r with
  | error e => cases h
  | ok s => exact congrArg Except.ok (Option.some.inj h)

theorem tentaOpera_opera {s t : Kernel} {e : Op (Addr × Pid)} (h : s.tentaOpera e = some t) :
    s.Opera e t := by
  cases e with
  | set x d =>
    simp only [Kernel.tentaOpera] at h
    split at h
    · rename_i hg
      exact ⟨hg.1, hg.2.1, hg.2.2, t, toOption_some h, .refl t⟩
    · cases h
  | tick => exact ⟨t, toOption_some h, .refl t⟩

/-- Two requests for the same tick, one of them inserted a tick later. -/
theorem sveglie_esatte_corsa :
    ∃ s₀ s, s₀.desTimer = none ∧ s₀.vive = [] ∧
      Run Kernel.Opera s₀ [.set (1, 1) 3, .tick, .set (2, 2) 2] s ∧
      ∃ L W R, Esatta [.set (1, 1) 3, .tick, .set (2, 2) 2] s L W R := by
  obtain ⟨x, -, hP⟩ := Sistema.prova_raggiunge (B := fun _ => True) (G := fun _ _ => True)
    [.attiva 0x7000 0 10 3 0x5010 0x5014 (pila 0x20000),
      .attiva 0x7100 0 12 3 0x5018 0x501c (pila 0x22000)] []
    (fun x => (x.kernel.desTimer = none ∧ x.kernel.vive = []) ∧
      (exec Kernel.tentaOpera x.kernel [.set (1, 1) 3, .tick, .set (2, 2) 2]).isSome)
    (by decide +kernel)
  simp only [decide_eq_true_eq] at hP
  obtain ⟨⟨htimer, hvive⟩, hs⟩ := hP
  obtain ⟨s, hs⟩ := Option.isSome_iff_exists.mp hs
  have hrun := (exec_run hs).mono fun _ _ _ => tentaOpera_opera
  exact ⟨x.kernel, s, htimer, hvive, hrun, sveglie_esatte _ _ _ htimer hvive hrun⟩

/-! ## `ki_delay` -/

/-- A call of `ki_delay` with the argument `n` by the process `x.2`, or a tick. -/
inductive Pausa
  | delay (x : Addr × Pid) (n : Int)
  | tick

namespace Pausa

/-- What the entry does to the timer queue. -/
def op : Pausa → Op (Addr × Pid)
  | .delay x n => .set x (n.tdiv 50)
  | .tick => .tick

/-- The ticks `ki_delay` promises. -/
def attesa (n : Int) : Int := max 1 (n.tdiv 50)

def tempo (es : List Pausa) : Nat := ticks (es.map op)

end Pausa

def Kernel.Riposa (s : Kernel) : Pausa → Kernel → Prop
  | .delay x n, t => x.1 ∉ s.vive ∧ s.esecuzione = some x.2 ∧ Intero n ∧
    ∃ s', kiDelay n x.1 s = .ok s' ∧ StessaCoda s' t
  | .tick, t => ∃ s', cdriverT s = .ok s' ∧ StessaCoda s' t

/-- Every call asks for a full tick. -/
def Piene (es : List Pausa) : Prop := ∀ x n, .delay x n ∈ es → 50 ≤ n

section

variable {s t : Kernel} {x : Addr × Pid} {n : Int} {l : List ((Addr × Pid) × Int)}

theorem attesa_eq (h : 50 ≤ n) : Pausa.attesa n = n.tdiv 50 := by
  unfold Pausa.attesa
  rw [Int.tdiv_eq_ediv_of_nonneg (by omega)]
  omega

/-- `ki_delay` is an insertion and leaves the queue alone then. -/
theorem kiDelay_eq {u : Kernel} (he : s.esecuzione = some x.2)
    (h : inserimentoCodaTimer x.1 (s.nuova x (n.tdiv 50)) = .ok u) :
    kiDelay n x.1 s = .ok (schedulatore u) := by
  unfold kiDelay
  rw [attendi_nuova he, h]
  rfl

theorem riposa_opera {e : Pausa} (he : ∀ x n, e = .delay x n → 50 ≤ n) (h : s.Riposa e t) :
    s.Opera e.op t := by
  cases e with
  | delay x n =>
    obtain ⟨hx, hesec, hn, s', heq, hframe⟩ := h
    have hn' := he x n rfl
    have hmax := hn.2
    have hdiv := Int.tdiv_eq_ediv_of_nonneg (a := n) (b := 50) (by omega)
    unfold kiDelay at heq
    rw [attendi_nuova hesec] at heq
    obtain ⟨u, hu, hs'⟩ := bind_ok heq
    obtain rfl := Except.ok.inj hs'
    exact ⟨hx, by omega, by omega, u, hu, (StessaCoda.schedulatore u).trans hframe⟩
  | tick => exact h

theorem attesa_breve (hn : Intero n) (h : n < 50) : n.tdiv 50 ≤ 0 ∧ -2 ^ 31 ≤ n.tdiv 50 - 1 := by
  have hmin := hn.1
  rcases Int.lt_or_le n 0 with h0 | h0
  · have hneg : (-n).tdiv 50 = -n.tdiv 50 := Int.neg_tdiv n 50
    rw [Int.tdiv_eq_ediv_of_nonneg (by omega)] at hneg
    omega
  · rw [Int.tdiv_eq_ediv_of_nonneg h0]
    omega

/-- A short pause is inserted in front of all others with a wait that is not positive. -/
theorem inserisciAttesa_breve {d : Int} (hl : Ready l) (hd : d ≤ 0) :
    ∃ m, inserisciAttesa d x l = (x, d) :: m ∧ m.map (fun r => r.1.1) = l.map fun r => r.1.1 := by
  cases l with
  | nil => exact ⟨[], rfl, rfl⟩
  | cons r l =>
    obtain ⟨y, e⟩ := r
    have he : 1 ≤ e := hl.head (y, e) rfl
    refine ⟨(y, int32 (e - d)) :: l, ?_, rfl⟩
    unfold inserisciAttesa
    rw [if_neg (by omega)]

/-- The tick behind a short pause removes no request. -/
theorem Sveglie.breve (h : Sveglie s l) (hx : x.1 ∉ s.vive) (he : s.esecuzione = some x.2)
    (hn : Intero n) (hbreve : n < 50) :
    ∃ s₁ s₂, kiDelay n x.1 s = .ok s₁ ∧ Pitos.scadenze s₁ = .ok s₂ ∧
      Linked s₂.pric s₂.desTimer (x.1 :: l.map fun r => r.1.1) := by
  have hlen := h.heap.length_eq
  rw [List.length_map] at hlen
  obtain ⟨hd, hd'⟩ := attesa_breve hn hbreve
  obtain ⟨ric, timer, heq, hD⟩ := h.dormono.inserimento (fun hm => hx (h.heap.mem_iff.mpr hm))
    hlen.ge (n.tdiv 50)
  obtain ⟨m, hm, hfst⟩ := inserisciAttesa_breve (x := x) h.pronta hd
  rw [hm] at hD
  have hD₁ := hD.congr (StessaCoda.schedulatore _).2.1 (StessaCoda.schedulatore _).1
  obtain ⟨ric', h₁, hscad⟩ := hD₁.scadenze (by
    rw [(StessaCoda.schedulatore _).2.2]
    have := congrArg List.length hfst
    simp only [List.length_map] at this
    show m.length + 1 ≤ (x.1 :: s.vive).length
    rw [List.length_cons]
    omega)
  have hne : int32 (n.tdiv 50 - 1) ≠ 0 := by
    have hmax : (0 : Int) ≤ INT_MAX := by decide
    rw [int32_of_range hd' (by omega)]
    omega
  have hring : ringing (scalaAttesa ((x, n.tdiv 50) :: m)) = [] := by
    simp [scalaAttesa, ringing, hne]
  have hwait : waiting (scalaAttesa ((x, n.tdiv 50) :: m)) =
      scalaAttesa ((x, n.tdiv 50) :: m) := by
    simp [scalaAttesa, waiting, hne]
  rw [hring, hwait] at hscad
  have h₂ := h₁.suffisso (l := [])
  refine ⟨_, _, kiDelay_eq he heq, hscad, ?_⟩
  rw [← hfst]
  exact h₂.timer

end

/-- The split of a run at an insertion is its split at a call. -/
theorem map_op_split {es : List Pausa} {fs₁ fs₂ : List (Op (Addr × Pid))} {x : Addr × Pid}
    {d : Int} :
    es.map Pausa.op = fs₁ ++ .set x d :: fs₂ ↔ ∃ es₁ n es₂, es = es₁ ++ .delay x n :: es₂ ∧
      fs₁ = es₁.map Pausa.op ∧ d = n.tdiv 50 ∧ fs₂ = es₂.map Pausa.op := by
  rw [List.map_eq_append_iff]
  constructor
  · rintro ⟨es₁, es', rfl, rfl, h⟩
    obtain ⟨e, es₂, rfl, he, rfl⟩ := List.map_eq_cons_iff.mp h
    cases e with
    | delay y n =>
      obtain ⟨rfl, rfl⟩ := Op.set.inj he
      exact ⟨es₁, n, es₂, rfl, rfl, rfl, rfl⟩
    | tick => cases he
  · rintro ⟨es₁, n, es₂, rfl, rfl, rfl, rfl⟩
    exact ⟨es₁, .delay x n :: es₂, rfl, rfl, rfl⟩

/-- **Delays do not disturb each other.** Each caller is woken at the tick its own call asked
for, whatever the other calls are. -/
structure Puntuale (es : List Pausa) (s : Kernel) (L W R : List (Addr × Pid)) : Prop where
  esatta : Esatta (es.map Pausa.op) s L W R
  attende : ∀ x, x ∈ L ↔ ∃ es₁ n es₂, es = es₁ ++ .delay x n :: es₂ ∧
    (Pausa.tempo es₂ : Int) < Pausa.attesa n
  scade : ∀ x, x ∈ W ↔ ∃ es₁ n es₂, es = es₁ ++ .delay x n :: es₂ ∧
    (Pausa.tempo es₂ : Int) + 1 = Pausa.attesa n

/-- What a call for less than a full tick does: the tick at which the caller is due removes
nobody, neither the caller nor those that were due with it. -/
def Tarda (s : Kernel) (L : List (Addr × Pid)) : Prop :=
  ∀ (x : Addr × Pid) (n : Int), x.1 ∉ s.vive → s.esecuzione = some x.2 → Intero n → n < 50 →
    ∃ s₁ s₂, kiDelay n x.1 s = .ok s₁ ∧ scadenze s₁ = .ok s₂ ∧
      Linked s₂.pric s₂.desTimer (x.1 :: L.map Prod.fst)

theorem pause_puntuali (es : List Pausa) (s₀ s : Kernel) (htimer : s₀.desTimer = none)
    (hvive : s₀.vive = []) (h : Run Kernel.Riposa s₀ es s) (hes : Piene es) :
    ∃ L W R, Puntuale es s L W R ∧ Tarda s L := by
  have hrun : Run Kernel.Opera s₀ (es.map Pausa.op) s :=
    h.relabel fun s t e he hs => riposa_opera (fun x n hxn => hes x n (hxn ▸ he)) hs
  obtain ⟨l, hl, hp⟩ := (Sveglie.vuota htimer hvive).run (p := []) (List.Perm.refl _) hrun
  have hesatta := hl.esatta (positive_of_run hrun) hp
  refine ⟨_, _, _, ⟨hesatta, fun x => ?_, fun x => ?_⟩, fun x n hx he hn hbreve => ?_⟩
  · rw [hesatta.attende]
    constructor
    · rintro ⟨fs₁, d, fs₂, hsplit, hlt⟩
      obtain ⟨es₁, n, es₂, rfl, -, rfl, rfl⟩ := map_op_split.mp hsplit
      exact ⟨es₁, n, es₂, rfl, by rwa [attesa_eq (hes x n (by simp))]⟩
    · rintro ⟨es₁, n, es₂, rfl, hlt⟩
      rw [attesa_eq (hes x n (by simp))] at hlt
      exact ⟨_, _, _, map_op_split.mpr ⟨es₁, n, es₂, rfl, rfl, rfl, rfl⟩, hlt⟩
  · rw [hesatta.scade]
    constructor
    · rintro ⟨fs₁, d, fs₂, hsplit, heq⟩
      obtain ⟨es₁, n, es₂, rfl, -, rfl, rfl⟩ := map_op_split.mp hsplit
      exact ⟨es₁, n, es₂, rfl, by rwa [attesa_eq (hes x n (by simp))]⟩
    · rintro ⟨es₁, n, es₂, rfl, heq⟩
      rw [attesa_eq (hes x n (by simp))] at heq
      exact ⟨_, _, _, map_op_split.mpr ⟨es₁, n, es₂, rfl, rfl, rfl, rfl⟩, heq⟩
  · obtain ⟨s₁, s₂, h₁, h₂, hlink⟩ := hl.breve hx he hn hbreve
    refine ⟨s₁, s₂, h₁, h₂, ?_⟩
    rw [List.map_map]
    exact hlink

/-- The calls, executed. -/
def Kernel.tentaRiposa (s : Kernel) : Pausa → Option Kernel
  | .delay x n =>
    if x.1 ∉ s.vive ∧ s.esecuzione = some x.2 ∧ Intero n then (kiDelay n x.1 s).toOption else none
  | .tick => (cdriverT s).toOption

theorem tentaRiposa_riposa {s t : Kernel} {e : Pausa} (h : s.tentaRiposa e = some t) :
    s.Riposa e t := by
  cases e with
  | delay x n =>
    simp only [Kernel.tentaRiposa] at h
    split at h
    · rename_i hg
      exact ⟨hg.1, hg.2.1, hg.2.2, t, toOption_some h, .refl t⟩
    · cases h
  | tick => exact ⟨t, toOption_some h, .refl t⟩

/-- Two processes go to sleep one after the other, for three ticks and for one. -/
theorem pause_puntuali_corsa :
    ∃ s₀ s, s₀.desTimer = none ∧ s₀.vive = [] ∧
      Run Kernel.Riposa s₀ [.delay (1, 1) 150, .delay (2, 2) 99, .tick] s ∧
      Piene [.delay (1, 1) 150, .delay (2, 2) 99, .tick] ∧
      ∃ L W R, Puntuale [.delay (1, 1) 150, .delay (2, 2) 99, .tick] s L W R ∧ Tarda s L := by
  obtain ⟨x, -, hP⟩ := Sistema.prova_raggiunge (B := fun _ => True) (G := fun _ _ => True)
    [.attiva 0x7000 0 10 3 0x5010 0x5014 (pila 0x20000),
      .attiva 0x7100 0 12 3 0x5018 0x501c (pila 0x22000)] []
    (fun x => (x.kernel.desTimer = none ∧ x.kernel.vive = []) ∧
      (exec Kernel.tentaRiposa x.kernel [.delay (1, 1) 150, .delay (2, 2) 99, .tick]).isSome)
    (by decide +kernel)
  simp only [decide_eq_true_eq] at hP
  obtain ⟨⟨htimer, hvive⟩, hs⟩ := hP
  obtain ⟨s, hs⟩ := Option.isSome_iff_exists.mp hs
  have hrun := (exec_run hs).mono fun _ _ _ => tentaRiposa_riposa
  have hpiene : Piene [.delay (1, 1) 150, .delay (2, 2) 99, .tick] := by
    intro y n hmem
    simp only [List.mem_cons, Pausa.delay.injEq, reduceCtorEq, List.not_mem_nil, or_false] at hmem
    omega
  exact ⟨x.kernel, s, htimer, hvive, hrun, hpiene, pause_puntuali _ _ _ htimer hvive hrun hpiene⟩

/-- One process sleeps for two ticks; another asks for a pause of no time behind it. Three ticks
later both still sleep. -/
theorem pausa_breve :
    ∃ x, Sistema.Raggiunge (fun _ => True) (fun _ _ => True)
        [.chiamata (.delay 100 1), .chiamata (.delay 0 2), .tick, .tick, .tick] x ∧
      Pausa.attesa 100 = 2 ∧ Pausa.attesa 0 = 1 ∧
      Linked x.kernel.pric x.kernel.desTimer [2, 1] ∧ (x.kernel.ric 1).proc = some 1 ∧
      (x.kernel.ric 2).proc = some 2 ∧ ¬ x.kernel.InPronti 1 ∧ ¬ x.kernel.InPronti 2 := by
  obtain ⟨x, hx, hP⟩ := Sistema.prova_raggiunge (B := fun _ => True) (G := fun _ _ => True)
    [.attiva 0x7000 0 10 3 0x5010 0x5014 (pila 0x20000),
      .attiva 0x7100 0 12 3 0x5018 0x501c (pila 0x22000)]
    [.chiamata (.delay 100 1), .chiamata (.delay 0 2), .tick, .tick, .tick]
    (fun x => ((x.kernel.desTimer = some 2 ∧ x.kernel.pric 2 = some 1) ∧
      (x.kernel.pric 1 = none ∧ x.kernel.pronti = none)) ∧
        (x.kernel.ric 1).proc = some 1 ∧ (x.kernel.ric 2).proc = some 2)
    (by decide +kernel)
  simp only [decide_eq_true_eq] at hP
  obtain ⟨⟨⟨htimer, h2⟩, h1, hpronti⟩, hp1, hp2⟩ := hP
  have hnone : ∀ p, ¬ x.kernel.InPronti p := by
    rintro p ⟨l, hl, hmem⟩
    rw [hpronti] at hl
    rw [Linked.none_iff.mp hl] at hmem
    cases hmem
  refine ⟨x, hx, by decide, by decide, ?_, hp1, hp2, hnone 1, hnone 2⟩
  rw [htimer]
  apply Linked.cons
  rw [h2]
  apply Linked.cons
  rw [h1]
  exact Linked.nil

end Pitos
