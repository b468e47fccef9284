import Pitos.Abstract.Turns

/-!
# What is charged

`conto a p` is the time on the account of `p`: what stands in `tickTotal` and the ticks of the
running process that are not charged yet. A tick adds one to the account of the running process
and the moves of places leave all accounts as they are (`Mossa.conto`), with two exceptions: a
handoff between processes whose ticks are not zero, and the new priorities, which clear
`tickTotal`.
-/

namespace Pitos

open Lib

/-- The result of an operation counts modulo `2^32`. -/
theorem int32_add (x y : Int) : int32 (int32 x + y) = int32 (x + y) := Int.bmod_add_bmod

theorem add_int32 (x y : Int) : int32 (x + int32 y) = int32 (x + y) := Int.add_bmod_bmod

theorem int32_congr_add {x y : Int} (k : Int) (h : int32 x = int32 y) :
    int32 (x + k) = int32 (y + k) := by
  rw [← int32_add x, h, int32_add]

namespace Astratto

/-- The ticks of the running process that are not charged yet. -/
def sospesi (a : Astratto) (p : Pid) : Int := if a.esecuzione = some p then (a.dati p).tick else 0

def conto (a : Astratto) (p : Pid) : Int := (a.dati p).tickTotal + a.sospesi p

variable {a b c : Astratto} {p q : Pid} {l : List Pid}

theorem sospesi_of_ne (h : a.esecuzione ≠ some p) : a.sospesi p = 0 := if_neg h

theorem sospesi_of_eq (h : a.esecuzione = some p) : a.sospesi p = (a.dati p).tick := if_pos h

theorem conto_congr (he : b.esecuzione = a.esecuzione)
    (htotal : (b.dati p).tickTotal = (a.dati p).tickTotal)
    (htick : (b.dati p).tick = (a.dati p).tick) : b.conto p = a.conto p := by
  unfold conto sospesi
  rw [he, htotal, htick]

/-- An assignment that leaves the times alone. -/
theorem conto_aggiorna {f : DesProc → DesProc}
    (htotal : (f (a.dati q)).tickTotal = (a.dati q).tickTotal)
    (htick : (f (a.dati q)).tick = (a.dati q).tick) (p : Pid) :
    (a.aggiorna q f).conto p = a.conto p := by
  refine conto_congr rfl ?_ ?_
  · exact campo_aggiorna DesProc.tickTotal htotal p
  · exact tick_aggiorna htick p

theorem tickTotal_saldo (p : Pid) : (a.saldo.dati p).tickTotal =
    if a.esecuzione = some p then int32 ((a.dati p).tickTotal + (a.dati p).tick)
      else (a.dati p).tickTotal := by
  unfold saldo
  split
  · rename_i he
    rw [he, if_neg (by rintro ⟨⟩)]
  · rename_i e he
    rw [he, dati_aggiorna]
    by_cases hp : p = e
    · subst hp
      rw [Function.update_self, if_pos rfl]
      rfl
    · rw [Function.update_of_ne hp, if_neg fun h => hp (Option.some.inj h).symm]

theorem tickTotal_schedulatore (hc : c.pronti = q :: l) (p : Pid) :
    (c.schedulatore.dati p).tickTotal =
      if c.esecuzione = some p then int32 ((c.dati p).tickTotal + (c.dati p).tick)
        else (c.dati p).tickTotal := by
  rw [← tickTotal_saldo]
  simp only [schedulatore, hc, setEsecuzione, setPronti, dati_aggiorna]
  by_cases hp : p = q
  · subst hp
    rw [Function.update_self]
    rfl
  · rw [Function.update_of_ne hp]

/-- A process that gets the CPU from the scheduler has nothing to be charged for. -/
theorem sospesi_schedulatore (hc : c.pronti ≠ []) (p : Pid) : c.schedulatore.sospesi p = 0 := by
  obtain ⟨q, l, hq⟩ := List.exists_cons_of_ne_nil hc
  unfold sospesi
  rw [esecuzione_schedulatore hq]
  split
  · rename_i h
    rw [tick_schedulatore hq, if_pos (Option.some.inj h).symm]
  · rfl

/-- The scheduler charges the process that leaves the CPU, and starts from zero the one that
gets it. -/
theorem conto_schedulatore (c : Astratto) (p : Pid) :
    int32 (c.schedulatore.conto p) = int32 (c.conto p) := by
  cases hc : c.pronti with
  | nil =>
    have hs : c.schedulatore = c := by simp [schedulatore, hc]
    rw [hs]
  | cons q l =>
    unfold conto
    rw [sospesi_schedulatore (hc ▸ List.cons_ne_nil q l), add_zero, tickTotal_schedulatore hc]
    unfold sospesi
    split
    · exact Int.bmod_bmod
    · rw [add_zero]

end Astratto

open Astratto

variable {a b : Astratto} {t : Atto} {p : Pid}

theorem Mossa.conto (h : Mossa a t b) (ht : ∀ k, t ≠ .attiva p k) (hconta : t ≠ .conta)
    (hr : t ≠ .rischedula)
    (hcede : ∀ i q r, t = .cede i q r → (a.dati q).tick = 0 ∧ (a.dati r).tick = 0) :
    int32 (b.conto p) = int32 (a.conto p) := by
  cases h with
  | parte he => exact conto_schedulatore a p
  | dati q d he hq h => rw [conto_aggiorna h.tickTotal h.tick]
  | chiude he => rw [conto_aggiorna rfl rfl]
  | attiva q d he hfree hstato htick htotal hbase hmask hgestori =>
    have hpq : p ≠ q := by
      rintro rfl
      exact ht _ rfl
    have hdati : ((a.aggiorna q fun _ => d).dati p) = a.dati p := by
      rw [dati_aggiorna, Function.update_of_ne hpq]
    refine congrArg int32 (conto_congr rfl ?_ ?_)
    · exact congrArg DesProc.tickTotal hdati
    · exact congrArg DesProc.tick hdati
  | termina q he hq =>
    refine (conto_schedulatore _ p).trans (congrArg int32 ?_)
    exact conto_aggiorna (f := DesProc.libero) rfl rfl p
  | blocca i q he hq hc => exact (conto_schedulatore _ p).trans rfl
  | cede i q r l he hc hq hprec =>
    obtain ⟨hq0, hr0⟩ := hcede i q r rfl
    have hs : ∀ {c : Astratto} {x : Pid}, c.esecuzione = some x → (c.dati x).tick = 0 →
        c.sospesi p = 0 := by
      intro c x hx h0
      unfold sospesi
      split
      · rename_i h
        rw [← Option.some.inj (hx.symm.trans h), h0]
      · rfl
    let c := (((a.setCount i (int32 ((a.sem i).count + 1))).setCoda i l).accoda q).setEsecuzione
      (some r)
    have hc : c.conto p = a.conto p := by
      unfold Astratto.conto
      rw [hs (c := c) rfl hr0, hs he hq0]
      rfl
    exact congrArg int32 ((conto_aggiorna rfl rfl p).trans hc)
  | dorme d x he hp hx => exact (conto_schedulatore _ p).trans rfl
  | orologio =>
    refine congrArg int32 (conto_congr esecuzione_orologio ?_ (tick_orologio p))
    rw [Astratto.orologio, svegliaTutti_eq]
    simp only [setSonno]
    split <;> rfl
  | conta q he => exact absurd rfl hconta
  | prelazione q he hr ht => exact (conto_schedulatore _ p).trans rfl
  | rischedula q he hr' => exact absurd rfl hr
  | _ => rfl

/-- A tick. -/
theorem Mossa.conto_conta (h : Mossa a .conta b) (p : Pid) :
    int32 (b.conto p) = int32 (a.conto p + if a.esecuzione = some p then 1 else 0) := by
  cases h with
  | conta q he =>
    by_cases hp : p = q
    · subst hp
      rw [if_pos he]
      unfold Astratto.conto
      rw [sospesi_of_eq he, sospesi_of_eq (a := a.aggiorna p DesProc.contato) he, dati_aggiorna,
        Function.update_self, add_assoc]
      exact add_int32 _ _
    · have hne : a.esecuzione ≠ some p := fun h => hp (Option.some.inj (h.symm.trans he))
      rw [if_neg hne, add_zero]
      refine congrArg int32 (conto_congr rfl ?_ ?_)
      · rw [dati_aggiorna, Function.update_of_ne hp]
      · rw [dati_aggiorna, Function.update_of_ne hp]

end Pitos
