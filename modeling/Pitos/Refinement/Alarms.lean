import Pitos.Refinement.Represents

/-!
# The timer queue represents the list of the sleeping processes

`inserimento_coda_timer` computes `inserisciAttesa` (`inserimentoCodaTimer_eq`) and the timer
part of `cdriver_t` computes `orologio` (`scadenze_eq`).
-/

namespace Pitos

open Lib

/-- The requests of the timer queue, with their processes and waits. -/
structure Dormono (s : Kernel) (l : List ((Addr × Pid) × Int)) : Prop where
  timer : Linked s.pric s.desTimer (l.map fun r => r.1.1)
  proc : ∀ r ∈ l, (s.ric r.1.1).proc = some r.1.2
  dattesa : ∀ r ∈ l, (s.ric r.1.1).dattesa = r.2

/-- A request that `new` has just returned, filled in. -/
def Kernel.nuova (s : Kernel) (x : Addr × Pid) (d : Int) : Kernel :=
  { s with
    vive := x.1 :: s.vive
    ric := Function.update s.ric x.1 { s.ric x.1 with dattesa := d, proc := some x.2 } }

variable {s : Kernel} {a : Astratto} {p : Pid} {x : Addr × Pid} {d : Int}
  {l : List ((Addr × Pid) × Int)}

/-! ## Insertion -/

/-- The wait of the successor of an inserted request. -/
def riduci (e : Int) : List ((Addr × Pid) × Int) → List ((Addr × Pid) × Int)
  | [] => []
  | (y, f) :: l => (y, int32 (f - e)) :: l

theorem mem_riduci {e : Int} {r : (Addr × Pid) × Int} (h : r ∈ riduci e l) :
    ∃ q ∈ l, q.1 = r.1 := by
  cases l with
  | nil => simp [riduci] at h
  | cons q l =>
    rcases List.mem_cons.mp h with rfl | h
    · exact ⟨q, by simp, rfl⟩
    · exact ⟨r, by simp [h], rfl⟩

/-- The search along the requests stops where `inserisciAttesa` inserts. -/
theorem cut_oltre (x : Addr × Pid) (h : ∀ r ∈ l, (s.ric r.1.1).dattesa = r.2) :
    ∃ l₁ l₂ e, l = l₁ ++ l₂ ∧
      cut s.oltre d (l.map fun r => r.1.1) =
        (l₁.map (fun r => r.1.1), e, l₂.map fun r => r.1.1) ∧
      inserisciAttesa d x l = l₁ ++ (x, e) :: riduci e l₂ := by
  induction l generalizing d with
  | nil => exact ⟨[], [], d, rfl, rfl, rfl⟩
  | cons r l ih =>
    obtain ⟨y, f⟩ := r
    have hf : (s.ric y.1).dattesa = f := h (y, f) (by simp)
    by_cases hd : d > f
    · obtain ⟨l₁, l₂, e, hl, hcut, hins⟩ :=
        ih (d := int32 (d - f)) fun r hr => h r (by simp [hr])
      refine ⟨(y, f) :: l₁, l₂, e, by simp [hl], ?_, ?_⟩
      · simp only [List.map_cons, cut, Kernel.oltre, hf, if_pos hd]
        rw [hcut]
      · simp only [inserisciAttesa, if_pos hd, hins, List.cons_append]
    · refine ⟨[], (y, f) :: l, d, rfl, ?_, ?_⟩
      · simp only [List.map_cons, cut, Kernel.oltre, hf, if_neg hd, List.map_nil]
      · simp only [inserisciAttesa, if_neg hd, riduci, List.nil_append]

/-- The requests after the assignments of `inserimento_coda_timer`: the request itself, the
`pric` of the one before it and the wait of the one behind it. -/
def ricollega (ric : Addr → Richiesta) (z : Addr) (e : Int) (prec r : Option Addr) :
    Addr → Richiesta :=
  let ric₁ := Function.update ric z { ric z with dattesa := e, pric := r }
  let ric₂ := match prec with
    | none => ric₁
    | some q => Function.update ric₁ q { ric₁ q with pric := some z }
  match r with
  | none => ric₂
  | some r => Function.update ric₂ r
      { ric₂ r with dattesa := int32 ((ric₂ r).dattesa - (ric₂ z).dattesa) }

theorem inserimentoCodaTimer_ok {z : Addr} {e : Int} {prec r : Option Addr}
    (hwalk : walk s.oltre s.pric (s.vive.length + 1) (s.ric z).dattesa none s.desTimer =
      some (e, prec, r)) :
    inserimentoCodaTimer z s = .ok { s with
      ric := ricollega s.ric z e prec r
      des := setNext s.des (s.ric z).proc none
      desTimer := prec.elim (some z) fun _ => s.desTimer } := by
  have hz : ∀ q : Richiesta, q.proc = (s.ric z).proc →
      ((Function.update s.ric z q) z).proc = (s.ric z).proc := by
    intro q hq
    rw [Function.update_self, hq]
  unfold inserimentoCodaTimer
  rw [hwalk]
  cases prec <;> cases r <;>
    simp only [Kernel.aggiornaRic, Kernel.aggiorna, ricollega, setNext, hz, Option.elim]

/-- When the three requests are different, the links are those of `splice` and the other waits
stay as they are. -/
theorem ricollega_eq (ric : Addr → Richiesta) (z : Addr) (e : Int) {prec r : Option Addr}
    (hrz : r ≠ some z) (hpz : prec ≠ some z) (hpr : ∀ q, prec = some q → r ≠ some q) (y : Addr) :
    ricollega ric z e prec r y =
      { pric := splice (fun y => (ric y).pric) prec z r y
        proc := (ric y).proc
        dattesa := if y = z then e else
          if some y = r then int32 ((ric y).dattesa - e) else (ric y).dattesa } := by
  unfold ricollega splice
  cases prec with
  | none =>
    cases r with
    | none => by_cases hy : y = z <;> simp [hy]
    | some r =>
      have hr : r ≠ z := fun h => hrz (h ▸ rfl)
      by_cases hy : y = z
      · subst hy
        simp [hr.symm]
      · by_cases hyr : y = r
        · subst hyr
          simp [hy]
        · simp [hy, hyr]
  | some q =>
    have hq : q ≠ z := fun h => hpz (h ▸ rfl)
    cases r with
    | none =>
      by_cases hyq : y = q
      · subst hyq
        simp [hq]
      · by_cases hy : y = z <;> simp [hy, hyq, hq.symm]
    | some r =>
      have hr : r ≠ z := fun h => hrz (h ▸ rfl)
      have hqr : q ≠ r := fun h => hpr q rfl (h ▸ rfl)
      by_cases hyr : y = r
      · subst hyr
        simp [hr, hqr.symm, hq.symm]
      · by_cases hyq : y = q
        · subst hyq
          simp [hq, hqr]
        · by_cases hy : y = z <;> simp [hy, hyr, hyq, hr.symm, hq.symm]

/-- The body of `ki_delay` is the insertion of a new request of the current process. -/
theorem attendi_nuova {z : Addr} (he : s.esecuzione = some p) :
    attendi d z s = inserimentoCodaTimer z (s.nuova (z, p) d) >>= fun s =>
      .ok (schedulatore s) := by
  simp only [attendi, Kernel.aggiornaRic, Kernel.nuova, he]
  rfl

namespace Dormono

/-- The timer queue does not depend on the rest of the kernel. -/
theorem congr {s' : Kernel} (h : Dormono s l) (hric : s'.ric = s.ric)
    (htimer : s'.desTimer = s.desTimer) : Dormono s' l := by
  have hpric : s'.pric = s.pric := by
    unfold Kernel.pric
    rw [hric]
  refine ⟨?_, fun r hr => ?_, fun r hr => ?_⟩
  · rw [htimer, hpric]
    exact h.timer
  · rw [hric]
    exact h.proc r hr
  · rw [hric]
    exact h.dattesa r hr

/-- A new record is not in the queue. -/
theorem nuova (h : Dormono s l) (hx : x.1 ∉ l.map fun r => r.1.1) :
    Dormono (s.nuova x d) l := by
  have hne : ∀ r ∈ l, r.1.1 ≠ x.1 := fun r hr e => hx (e ▸ List.mem_map_of_mem hr)
  have hric : ∀ y, y ≠ x.1 → (s.nuova x d).ric y = s.ric y := fun y hy =>
    Function.update_of_ne hy _ _
  refine ⟨h.timer.congr fun y hy => ?_, fun r hr => ?_, fun r hr => ?_⟩
  · exact congrArg Richiesta.pric (hric y fun e => hx (e ▸ hy))
  · rw [hric _ (hne r hr), h.proc r hr]
  · rw [hric _ (hne r hr), h.dattesa r hr]

/-- The new links thread the new request into the queue. -/
theorem ricollega {l₁ l₂ : List ((Addr × Pid) × Int)} {e : Int} (h : Dormono s (l₁ ++ l₂))
    (hx : x.1 ∉ (l₁ ++ l₂).map fun r => r.1.1) (hproc : (s.ric x.1).proc = some x.2)
    {s' : Kernel}
    (hric' : s'.ric = Pitos.ricollega s.ric x.1 e (l₁.map fun r => r.1.1).getLast?
      (l₂.map fun r => r.1.1).head?)
    (htimer' : s'.desTimer = (l₁.map fun r => r.1.1).getLast?.elim (some x.1) fun _ => s.desTimer) :
    Dormono s' (l₁ ++ (x, e) :: riduci e l₂) := by
  have hlink := h.timer
  have hnodup := hlink.nodup
  rw [List.map_append] at hlink hnodup hx
  have hdisj := List.disjoint_of_nodup_append hnodup
  have hne : ∀ y ∈ (l₁.map fun r => r.1.1) ++ l₂.map fun r => r.1.1, y ≠ x.1 := fun y hy e =>
    hx (e ▸ hy)
  have hric := ricollega_eq s.ric x.1 e
    (fun h => hx (List.mem_append_right (l₁.map fun r => r.1.1) (List.mem_of_mem_head? h)))
    (fun h => hx (List.mem_append_left (l₂.map fun r => r.1.1) (List.mem_of_getLast? h)))
    (fun q h h' => hdisj (List.mem_of_getLast? h) (List.mem_of_mem_head? h'))
  refine ⟨?_, fun r hr => ?_, fun r hr => ?_⟩
  · have hsplice := hlink.splice hx
    have hriduci : (riduci e l₂).map (fun r => r.1.1) = l₂.map fun r => r.1.1 := by
      cases l₂ <;> rfl
    have hhead : (if l₁.map (fun r => r.1.1) = [] then some x.1 else s.desTimer) =
        (l₁.map fun r => r.1.1).getLast?.elim (some x.1) fun _ => s.desTimer := by
      cases hlast : (l₁.map fun r => r.1.1).getLast? with
      | none => simp [List.getLast?_eq_none_iff.mp hlast]
      | some q =>
        apply if_neg
        intro h
        rw [h] at hlast
        cases hlast
    rw [hhead, ← htimer'] at hsplice
    rw [List.map_append, List.map_cons, hriduci]
    apply hsplice.congr
    intro y _
    unfold Kernel.pric
    rw [hric', hric]
  · rw [hric', hric]
    rcases List.mem_append.mp hr with hr | hr
    · exact h.proc r (List.mem_append_left _ hr)
    · rcases List.mem_cons.mp hr with rfl | hr
      · exact hproc
      · obtain ⟨q, hq, hqr⟩ := mem_riduci hr
        rw [← hqr]
        exact h.proc q (List.mem_append_right _ hq)
  · rw [hric', hric]
    rcases List.mem_append.mp hr with hr | hr
    · have hhead : some r.1.1 ≠ (l₂.map fun r => r.1.1).head? := fun h =>
        hdisj (List.mem_map_of_mem hr) (List.mem_of_mem_head? h.symm)
      simp only [if_neg (hne _ (List.mem_append_left _ (List.mem_map_of_mem hr))), if_neg hhead]
      exact h.dattesa r (List.mem_append_left _ hr)
    · rcases List.mem_cons.mp hr with rfl | hr
      · simp
      · cases l₂ with
        | nil => exact absurd hr List.not_mem_nil
        | cons q l₂ =>
          rcases List.mem_cons.mp hr with rfl | hr
          · have hq := hne q.1.1 (List.mem_append_right _ List.mem_cons_self)
            simp only [if_neg hq, List.map_cons, List.head?_cons, if_true]
            rw [h.dattesa q (List.mem_append_right _ List.mem_cons_self)]
          · have hr' := List.mem_map_of_mem (f := fun r : (Addr × Pid) × Int => r.1.1) hr
            have hq : some r.1.1 ≠ some q.1.1 := fun e => by
              have h1 := (List.nodup_append.mp hnodup).2.1
              rw [List.map_cons] at h1
              exact (List.nodup_cons.mp h1).1 (Option.some.inj e ▸ hr')
            have hrx := hne r.1.1 (List.mem_append_right _ (List.mem_cons_of_mem _ hr'))
            simp only [if_neg hrx, List.map_cons, List.head?_cons, if_neg hq]
            exact h.dattesa r (List.mem_append_right _ (List.mem_cons_of_mem _ hr))

/-- `inserimento_coda_timer` on a new request. Apart from the queue it writes the `next` of the
process. -/
theorem inserimento (h : Dormono s l) (hx : x.1 ∉ l.map fun r => r.1.1)
    (hlen : l.length ≤ s.vive.length) (d : Int) :
    ∃ ric t, inserimentoCodaTimer x.1 (s.nuova x d) =
        .ok { s.nuova x d with
          ric := ric, desTimer := t, des := setNext s.des (some x.2) none } ∧
      Dormono { s.nuova x d with
        ric := ric, desTimer := t, des := setNext s.des (some x.2) none }
        (inserisciAttesa d x l) := by
  have h₁ : Dormono (s.nuova x d) l := h.nuova hx
  have hz : (s.nuova x d).ric x.1 = { s.ric x.1 with dattesa := d, proc := some x.2 } :=
    Function.update_self _ _ _
  obtain ⟨l₁, l₂, e, hl, hcut, hins⟩ := cut_oltre (d := d) x h₁.dattesa
  have hwalk := walk_eq (s.nuova x d).oltre h₁.timer
    (show (l.map fun r => r.1.1).length < (s.nuova x d).vive.length + 1 by
      rw [List.length_map]
      show l.length < (x.1 :: s.vive).length + 1
      simp only [List.length_cons]
      omega) d none
  rw [hcut] at hwalk
  simp only [Option.or_none] at hwalk
  have hok := inserimentoCodaTimer_ok (z := x.1) (s := s.nuova x d) (by rw [hz]; exact hwalk)
  rw [hz] at hok
  subst hl
  refine ⟨_, _, hok, ?_⟩
  rw [hins]
  exact h₁.ricollega hx (by rw [hz]) rfl rfl

end Dormono

namespace Rappr

theorem dormono (hR : Rappr s a) : Dormono s a.sonno := ⟨hR.timer, hR.proc, hR.dattesa⟩

theorem inserimentoCodaTimer_eq (hR : Rappr s a) (hx : x.1 ∉ a.vive)
    (hheap : a.vive.Perm (a.sonno.map fun r => r.1.1)) (hz : a.inCoda x.2 = 0) (d : Int) :
    ∃ s', inserimentoCodaTimer x.1 (s.nuova x d) = .ok s' ∧ Rappr s' (a.addormenta d x) := by
  obtain ⟨ric, t, heq, h'⟩ := hR.dormono.inserimento (fun h => hx (hheap.mem_iff.mpr h))
    (by rw [hR.vive, hheap.length_eq, List.length_map]) d
  have hframe : ∀ m : List Pid, x.2 ∉ m →
      ∀ r ∈ m, successore (setNext s.des (some x.2) none) r = successore s.des r := by
    intro m hm r hr
    have hne : r ≠ x.2 := fun e => hm (e ▸ hr)
    simp [successore_setNext, hne]
  exact ⟨_, heq, fun q => (slegato_setNext _ _ _ _).trans (hR.dati q), hR.esecuzione,
    hR.pronti.congr (hframe _ (not_mem_pronti hz)),
    fun i => ⟨(hR.coda i).congr (hframe _ (not_mem_coda hz)), hR.count i, hR.busy i⟩,
    h'.timer, h'.proc, h'.dattesa, congrArg _ hR.vive, hR.procCount, hR.rescheduler⟩

/-- `ki_delay` behind the division: the running process goes to sleep. -/
theorem attendi_eq (hR : Rappr s a) (hI : Inv a) (he : a.esecuzione = some p) {z : Addr}
    (hz : z ∉ a.vive) :
    ∃ s', attendi d z s = .ok s' ∧ Rappr s' (a.addormenta d (z, p)).schedulatore := by
  have hp := hI.inCoda_esecuzione he
  obtain ⟨s₁, heq, hR₁⟩ := hR.inserimentoCodaTimer_eq (x := (z, p)) hz hI.heap hp d
  have hS₁ : Separati (a.addormenta d (z, p)) := by
    intro r
    rw [Astratto.inCoda_addormenta]
    have := hI.inCoda_le r
    split
    · rename_i hr
      have hr' : p = r := hr
      subst hr'
      omega
    · omega
  refine ⟨Pitos.schedulatore s₁, ?_, hR₁.schedulatore hS₁⟩
  rw [attendi_nuova (hR.esecuzione.trans he), heq]
  rfl

end Rappr

/-! ## The clock -/

/-- What the loop of `cdriver_t` does with a request that is over: its process becomes ready
and the record is deleted. -/
def Kernel.risveglia (s : Kernel) (x : Addr × Pid) : Esito Kernel := do
  let s := s.aggiorna (some x.2) fun d => { d with stato := .PRONTO }
  let s ← s.inserisciPronti (some x.2)
  return { s with vive := s.vive.erase x.1 }

/-- The request at the head of the queue is not read again. -/
theorem risveglia_setTimer (s : Kernel) (t : Option Addr) (x : Addr × Pid) :
    ({ s with desTimer := t } : Kernel).risveglia x =
      s.risveglia x >>= fun s => .ok { s with desTimer := t } := by
  simp only [Kernel.risveglia, Kernel.aggiorna, Kernel.inserisciPronti]
  cases inserimentoCoda _ s.pronti (some x.2) <;> rfl

theorem risveglia_ok {s' : Kernel} (h : s.risveglia x = .ok s') :
    s'.ric = s.ric ∧ s'.desTimer = s.desTimer ∧ s'.vive = s.vive.erase x.1 := by
  simp only [Kernel.risveglia, Kernel.aggiorna, Kernel.inserisciPronti] at h
  cases hi : inserimentoCoda _ s.pronti (some x.2) with
  | none =>
    rw [hi] at h
    cases h
  | some c =>
    rw [hi] at h
    obtain rfl := Except.ok.inj h
    exact ⟨rfl, rfl, rfl⟩

namespace Dormono

/-- The queue from some request on. -/
theorem suffisso {m : List ((Addr × Pid) × Int)} (h : Dormono s (l ++ m)) :
    Dormono { s with desTimer := (m.map fun r => r.1.1).head? } m := by
  have hlink := h.timer
  rw [List.map_append] at hlink
  exact ⟨hlink.drop, fun r hr => h.proc r (List.mem_append_right _ hr),
    fun r hr => h.dattesa r (List.mem_append_right _ hr)⟩

/-- The loop of `cdriver_t` wakes the processes whose wait is over, in the order of the queue,
and leaves the others. -/
theorem svuota (h : Dormono s l) {n : Nat} (hn : l.length < n) :
    svuotaTimer n s = (ringing l).foldlM (fun s r => s.risveglia r.1)
      { s with desTimer := ((waiting l).map fun r => r.1.1).head? } := by
  induction l generalizing s n with
  | nil =>
    obtain ⟨n, rfl⟩ := Nat.exists_eq_add_one_of_ne_zero (Nat.ne_of_gt hn)
    have hnone : s.desTimer = none := by simpa using h.timer
    have hs : ({ s with desTimer := none } : Kernel) = s := by rw [← hnone]
    simp only [svuotaTimer, hnone]
    exact congrArg Except.ok hs.symm
  | cons r l ih =>
    obtain ⟨n, rfl⟩ := Nat.exists_eq_add_one_of_ne_zero (Nat.ne_of_gt (Nat.zero_lt_of_lt hn))
    have hhead : s.desTimer = some r.1.1 := h.timer.head_eq
    have hd := h.dattesa r List.mem_cons_self
    have hproc := h.proc r List.mem_cons_self
    by_cases h0 : r.2 = 0
    · have hring : ringing (r :: l) = r :: ringing l := by simp [ringing, h0]
      have hwait : waiting (r :: l) = waiting l := by simp [waiting, h0]
      have hpric : (s.ric r.1.1).pric = (l.map fun r => r.1.1).head? := by
        have hlink := h.timer
        rw [hhead, List.map_cons] at hlink
        exact (Linked.some_cons_iff.mp hlink).2.head_eq
      have hloop : svuotaTimer (n + 1) s =
          ({ s with desTimer := (l.map fun r => r.1.1).head? } : Kernel).risveglia r.1 >>=
            svuotaTimer n := by
        simp only [svuotaTimer, hhead, hd, h0, if_true, hproc, Kernel.risveglia, hpric,
          Kernel.aggiorna, Kernel.inserisciPronti]
        cases inserimentoCoda _ s.pronti (some r.1.2) <;> rfl
      rw [hloop, hring, hwait, List.foldlM_cons, risveglia_setTimer s, risveglia_setTimer s
        ((waiting l).map fun r => r.1.1).head?]
      cases hs : s.risveglia r.1 with
      | error e => rfl
      | ok s₁ =>
        obtain ⟨hric, -, -⟩ := risveglia_ok hs
        have h₁ : Dormono { s₁ with desTimer := (l.map fun r => r.1.1).head? } l :=
          (suffisso (l := [r]) h).congr hric rfl
        exact ih h₁ (by simpa using hn)
    · have hring : ringing (r :: l) = [] := by simp [ringing, h0]
      have hwait : waiting (r :: l) = r :: l := by simp [waiting, h0]
      have hs : ({ s with desTimer := some r.1.1 } : Kernel) = s := by rw [← hhead]
      rw [hring, hwait]
      simp only [svuotaTimer, hhead, hd, h0, if_false]
      exact congrArg Except.ok hs.symm

/-- The first wait is counted down. -/
theorem scala {r : (Addr × Pid) × Int} (h : Dormono s (r :: l)) :
    Dormono (s.aggiornaRic r.1.1 fun q => { q with dattesa := int32 (q.dattesa - 1) })
      (scalaAttesa (r :: l)) := by
  have hnodup := h.timer.nodup
  rw [List.map_cons] at hnodup
  have hne : ∀ q ∈ l, q.1.1 ≠ r.1.1 := fun q hq e =>
    (List.nodup_cons.mp hnodup).1 (e ▸ List.mem_map_of_mem hq)
  refine ⟨h.timer.congr fun y _ => ?_, fun q hq => ?_, fun q hq => ?_⟩
  · by_cases hy : y = r.1.1
    · subst hy
      simp [Kernel.pric, Kernel.aggiornaRic]
    · simp [Kernel.pric, Kernel.aggiornaRic, hy]
  · rcases List.mem_cons.mp hq with rfl | hq
    · simpa [Kernel.aggiornaRic] using h.proc r List.mem_cons_self
    · simpa [Kernel.aggiornaRic, hne q hq] using h.proc q (List.mem_cons_of_mem _ hq)
  · rcases List.mem_cons.mp hq with rfl | hq
    · simp [Kernel.aggiornaRic, h.dattesa r List.mem_cons_self]
    · simpa [Kernel.aggiornaRic, hne q hq] using h.dattesa q (List.mem_cons_of_mem _ hq)

/-- The timer part of `cdriver_t`. -/
theorem scadenze (h : Dormono s l) (hlen : l.length ≤ s.vive.length) :
    ∃ ric, Dormono { s with ric := ric } (scalaAttesa l) ∧
      Pitos.scadenze s = (ringing (scalaAttesa l)).foldlM (fun s r => s.risveglia r.1)
        { s with
          ric := ric, desTimer := ((waiting (scalaAttesa l)).map fun r => r.1.1).head? } := by
  have hlen' : (scalaAttesa l).length < s.vive.length + 1 := by
    have := congrArg List.length (Astratto.scalaAttesa_fst l)
    simp only [List.length_map] at this
    omega
  cases l with
  | nil =>
    have hnone : s.desTimer = none := by simpa using h.timer
    refine ⟨s.ric, h, ?_⟩
    simp only [Pitos.scadenze, hnone]
    exact h.svuota hlen'
  | cons r l =>
    have hhead : s.desTimer = some r.1.1 := h.timer.head_eq
    refine ⟨_, h.scala, ?_⟩
    simp only [Pitos.scadenze, hhead]
    exact h.scala.svuota (n := s.vive.length + 1) hlen'

end Dormono

namespace Rappr

/-- A request that is over. -/
theorem risveglia_eq (hR : Rappr s a) (hS : Separati a) (hx : a.inCoda x.2 = 0) :
    ∃ s', s.risveglia x = .ok s' ∧ Rappr s' (a.sveglia x) := by
  obtain ⟨s₁, heq, hR₁⟩ := (hR.aggiorna x.2 DesProc.pronto).inserisciPronti hS hx
  refine ⟨{ s₁ with vive := s₁.vive.erase x.1 }, ?_, hR₁.dati, hR₁.esecuzione, hR₁.pronti, hR₁.sem,
    hR₁.timer, hR₁.proc, hR₁.dattesa, congrArg (fun v => v.erase x.1) hR₁.vive, hR₁.procCount,
    hR₁.rescheduler⟩
  unfold Kernel.risveglia
  exact congrArg (fun r => r >>= fun s => pure { s with vive := s.vive.erase x.1 }) heq

/-- The requests that are over, one after the other. -/
theorem risvegli_eq (hR : Rappr s a) (hS : Separati a) (hl : (l.map fun r => r.1.2).Nodup)
    (h0 : ∀ r ∈ l, a.inCoda r.1.2 = 0) :
    ∃ s', l.foldlM (fun s r => s.risveglia r.1) s = .ok s' ∧ Rappr s' (a.svegliaTutti l) := by
  induction l generalizing s a with
  | nil => exact ⟨s, rfl, hR⟩
  | cons r l ih =>
    rw [List.map_cons, List.nodup_cons] at hl
    have hr := h0 r List.mem_cons_self
    obtain ⟨s₁, heq, hR₁⟩ := hR.risveglia_eq (x := r.1) hS hr
    have hS₁ : Separati (a.sveglia r.1) := by
      intro q
      rw [Astratto.inCoda_sveglia]
      have := hS q
      split
      · rename_i hq
        rw [← hq]
        omega
      · omega
    obtain ⟨s', heq', hR'⟩ := ih hR₁ hS₁ hl.2 fun q hq => by
      have hne : r.1.2 ≠ q.1.2 := fun e => hl.1 (e ▸ List.mem_map_of_mem hq)
      rw [Astratto.inCoda_sveglia, if_neg hne, h0 q (List.mem_cons_of_mem _ hq)]
    exact ⟨s', by rw [List.foldlM_cons, heq]; exact heq', hR'⟩

/-- The timer part of `cdriver_t` is `orologio`. -/
theorem scadenze_eq (hR : Rappr s a) (hI : Inv a) :
    ∃ s', scadenze s = .ok s' ∧ Rappr s' a.orologio := by
  obtain ⟨ric, h₁, heq⟩ := hR.dormono.scadenze (by
    rw [hR.vive, hI.heap.length_eq, List.length_map])
  have hsplit := Astratto.ringing_append_waiting (scalaAttesa a.sonno)
  have h₂ := Dormono.suffisso (hsplit.symm ▸ h₁)
  have hR₂ : Rappr { s with
      ric := ric
      desTimer := ((waiting (scalaAttesa a.sonno)).map fun r => r.1.1).head? }
      (a.setSonno (waiting (scalaAttesa a.sonno)) a.vive) :=
    ⟨hR.dati, hR.esecuzione, hR.pronti, hR.sem, h₂.timer, h₂.proc, h₂.dattesa, hR.vive,
      hR.procCount, hR.rescheduler⟩
  -- a process that sleeps once stands nowhere when its request is taken off
  have hcount : ∀ q, (a.setSonno (waiting (scalaAttesa a.sonno)) a.vive).inCoda q +
      ((ringing (scalaAttesa a.sonno)).map fun r => r.1.2).count q = a.inCoda q := by
    intro q
    have h := congrArg (List.count q) (Astratto.scalaAttesa_proc a.sonno)
    rw [← hsplit, List.map_append, List.count_append] at h
    unfold Astratto.inCoda
    simp only [Astratto.setSonno]
    omega
  have hone : ∀ q, _ := fun q => (hcount q).trans_le (hI.inCoda_le q)
  obtain ⟨s', heq', hR'⟩ := hR₂.risvegli_eq (l := ringing (scalaAttesa a.sonno))
    (fun q => by have := hone q; omega)
    (List.nodup_iff_count_le_one.mpr fun q => by have := hone q; omega) fun r hr => by
      have h1 := hone r.1.2
      have h2 := List.count_pos_iff.mpr (List.mem_map_of_mem (f := fun r => r.1.2) hr)
      omega
  exact ⟨s', heq.trans heq', hR'⟩

end Rappr

end Pitos
