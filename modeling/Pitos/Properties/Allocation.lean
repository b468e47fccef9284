import Pitos.Kernel.Places
import Pitos.Refinement.Handles

/-!
# The handles that `ki_sem_ini` returns

`assegnazione`: from a table without busy semaphores the first `MAXSEMS` calls each take a
semaphore of their own and the others take none. The search goes on after a hit, so the handles
come out from the last one down (`Occupati`). What the caller finds in `risu` is another matter:
a call that takes a semaphore does not write it, where `ki_activate_p_level` does.
-/

namespace Pitos

open Lib

/-- The last `k` semaphores are busy and no others. -/
def Occupati (s : Kernel) (k : Nat) : Prop :=
  ∀ i, (s.dessem i).busy = true ↔ MAXSEMS ≤ i.val + k

namespace Occupati

variable {s t : Kernel} {k : Nat}

theorem iniziale (h : ∀ i, (s.dessem i).busy = false) : Occupati s 0 := by
  intro i
  have hi := i.isLt
  simp [h, hi]

theorem cercaSem_some (h : Occupati s k) (hk : k < MAXSEMS) :
    s.cercaSem = some ⟨MAXSEMS - 1 - k, by omega⟩ := by
  obtain ⟨hnone, hsome⟩ := foldl_ultimo (fun i => (s.dessem i).busy)
    (List.pairwise_lt_finRange MAXSEMS)
  change (s.cercaSem = none → _) at hnone
  change ∀ i, s.cercaSem = some i → _ at hsome
  cases hc : s.cercaSem with
  | none =>
    have hbusy := (h ⟨0, by omega⟩).mp (hnone hc _ (List.mem_finRange _))
    exact absurd hbusy (by simpa using hk)
  | some i =>
    obtain ⟨-, hfree, hafter⟩ := hsome i hc
    have hi : ¬ MAXSEMS ≤ i.val + k := fun hle => by simp [(h i).mpr hle] at hfree
    have hlast : ¬ i.val < MAXSEMS - 1 - k := fun hlt => by
      have hbusy := hafter ⟨MAXSEMS - 1 - k, by omega⟩ (List.mem_finRange _) hlt
      have hle := (h _).mp hbusy
      simp only at hle
      omega
    congr 1
    apply Fin.ext
    simp only
    omega

theorem cercaSem_none (h : Occupati s k) (hk : MAXSEMS ≤ k) : s.cercaSem = none := by
  obtain ⟨-, hsome⟩ := foldl_ultimo (fun i => (s.dessem i).busy)
    (List.pairwise_lt_finRange MAXSEMS)
  change ∀ i, s.cercaSem = some i → _ at hsome
  cases hc : s.cercaSem with
  | none => rfl
  | some i =>
    have hfree := (hsome i hc).2.1
    have hbusy := (h i).mpr (by omega)
    rw [hbusy] at hfree
    cases hfree

end Occupati

/-! ## One call -/

/-- A call of `ki_sem_ini` and the memory it finds; `idx` and `risu` are two variables of the
caller, a word and a byte. -/
structure CreaSem where
  mem : Mem
  valore : Int
  idx : Word
  risu : Word
  distinte : ¬ Mem.Within idx 4 risu

def CreaSem.esegui (c : CreaSem) (s : Kernel) : Kernel :=
  kiSemIni c.valore c.idx c.risu { s with mem := c.mem }

/-- The state that the first `k` calls leave. -/
def dopoCreaSem (s : Kernel) (cs : List CreaSem) (k : Nat) : Kernel :=
  (cs.take k).foldl (fun s c => c.esegui s) s

/-- The call takes semaphore `i`, which nobody had, and returns its handle. -/
structure Concede (c : CreaSem) (s : Kernel) (i : Fin MAXSEMS) : Prop where
  libero : (s.dessem i).busy = false
  idx : (c.esegui s).mem.read32 c.idx = BitVec.ofNat 32 i
  sem : (c.esegui s).dessem i = { coda := none, count := c.valore, busy := true }
  altri : ∀ j, j ≠ i → (c.esegui s).dessem j = s.dessem j

/-- The call takes none. -/
structure Rifiuta (c : CreaSem) (s : Kernel) : Prop where
  risu : (c.esegui s).mem c.risu = 0
  idx : (c.esegui s).mem.read32 c.idx = c.mem.read32 c.idx
  sem : (c.esegui s).dessem = s.dessem

namespace CreaSem

variable {c : CreaSem} {s : Kernel} {i : Fin MAXSEMS}

theorem esegui_some (h : s.cercaSem = some i) :
    c.esegui s = { s with
      mem := c.mem.write32 c.idx (BitVec.ofNat 32 i)
      dessem := Function.update s.dessem i { coda := none, count := c.valore, busy := true } } := by
  have h' : ({ s with mem := c.mem } : Kernel).cercaSem = some i := h
  simp only [esegui, kiSemIni, h']

theorem esegui_none (h : s.cercaSem = none) :
    c.esegui s = { s with mem := c.mem.write8 c.risu 0 } := by
  have h' : ({ s with mem := c.mem } : Kernel).cercaSem = none := h
  simp only [esegui, kiSemIni, h']

theorem concede (h : s.cercaSem = some i) : Concede c s i := by
  refine ⟨cercaSem_eq h, ?_, ?_, fun j hj => ?_⟩ <;> rw [esegui_some h]
  · exact Mem.read32_write32 _ _ _
  · exact Function.update_self _ _ _
  · exact Function.update_of_ne hj _ _

theorem rifiuta (h : s.cercaSem = none) : Rifiuta c s := by
  refine ⟨?_, ?_, ?_⟩ <;> rw [esegui_none h]
  · exact if_pos rfl
  · apply Mem.read32_within
    intro b hb
    have hne : b ≠ c.risu := fun e => c.distinte (e ▸ hb)
    exact if_neg hne

/-- A call that takes a semaphore leaves `risu` as it was. -/
theorem risu_intatto (h : s.cercaSem = some i) : (c.esegui s).mem c.risu = c.mem c.risu := by
  rw [esegui_some h]
  exact Mem.write32_far (Nat.le_of_not_lt c.distinte)

end CreaSem

/-! ## A sequence of calls -/

theorem dopoCreaSem_succ {s : Kernel} {cs : List CreaSem} {k : Nat} {c : CreaSem}
    (hc : cs[k]? = some c) : dopoCreaSem s cs (k + 1) = c.esegui (dopoCreaSem s cs k) := by
  rw [dopoCreaSem, List.take_add_one, hc, List.foldl_append]
  rfl

/-- A call takes the last free semaphore; when none is free, nothing changes. -/
theorem Occupati.esegui {s : Kernel} {k : Nat} (h : Occupati s k) (c : CreaSem) :
    Occupati (c.esegui s) (k + 1) := by
  intro i
  by_cases hk : k < MAXSEMS
  · have hconcede : Concede c s ⟨MAXSEMS - 1 - k, by omega⟩ := CreaSem.concede (h.cercaSem_some hk)
    by_cases hi : i = ⟨MAXSEMS - 1 - k, by omega⟩
    · subst hi
      rw [hconcede.sem]
      refine ⟨?_, fun _ => rfl⟩
      intro _
      simp only
      omega
    · have hne : i.val ≠ MAXSEMS - 1 - k := fun e => hi (Fin.ext e)
      rw [hconcede.altri i hi, h i]
      omega
  · rw [CreaSem.esegui_none (h.cercaSem_none (Nat.le_of_not_lt hk)), h i]
    omega

theorem occupati_dopo {s : Kernel} (hs : Occupati s 0) (cs : List CreaSem) {k : Nat}
    (hk : k ≤ cs.length) : Occupati (dopoCreaSem s cs k) k := by
  induction k with
  | zero => exact hs
  | succ k ih =>
    rw [dopoCreaSem_succ (List.getElem?_eq_getElem hk)]
    exact (ih (by omega)).esegui _

/-- The semaphores and `idx`: every one of the first `MAXSEMS` calls takes a semaphore of its
own, every later one is refused. -/
def Assegnate (s : Kernel) (cs : List CreaSem) : Prop :=
  ∃ maniglie : Fin MAXSEMS → Fin MAXSEMS, Function.Injective maniglie ∧
    ∀ k c, cs[k]? = some c →
      (∀ hk : k < MAXSEMS, Concede c (dopoCreaSem s cs k) (maniglie ⟨k, hk⟩)) ∧
        (MAXSEMS ≤ k → Rifiuta c (dopoCreaSem s cs k))

/-- A call that takes a semaphore sets `risu` to `true`. -/
def Annunciate (s : Kernel) (cs : List CreaSem) : Prop :=
  ∀ k c, cs[k]? = some c → k < MAXSEMS → (c.esegui (dopoCreaSem s cs k)).mem c.risu = 1

/-- **The allocation of semaphores.** The handles are as they should be for every sequence of
calls, and the caller learns of it in `risu` exactly when the variable is `true` already. -/
theorem assegnazione {s : Kernel} (hs : ∀ i, (s.dessem i).busy = false) (cs : List CreaSem) :
    Assegnate s cs ∧ (Assegnate s cs ∧ Annunciate s cs ↔
      ∀ k c, cs[k]? = some c → k < MAXSEMS → c.mem c.risu = 1) := by
  have hocc : ∀ {k c}, cs[k]? = some c → Occupati (dopoCreaSem s cs k) k := fun hc =>
    occupati_dopo (.iniziale hs) cs (Nat.le_of_lt (List.getElem?_eq_some_iff.mp hc).1)
  have hassegnate : Assegnate s cs := by
    refine ⟨Fin.rev, Fin.rev_injective, fun k c hc => ⟨fun hk => ?_, fun hk => ?_⟩⟩
    · refine CreaSem.concede (((hocc hc).cercaSem_some hk).trans (congrArg some (Fin.ext ?_)))
      rw [Fin.val_rev]
      simp only
      omega
    · exact CreaSem.rifiuta ((hocc hc).cercaSem_none hk)
  have hrisu : ∀ {k c}, cs[k]? = some c → k < MAXSEMS →
      (c.esegui (dopoCreaSem s cs k)).mem c.risu = c.mem c.risu := fun hc hk =>
    CreaSem.risu_intatto ((hocc hc).cercaSem_some hk)
  refine ⟨hassegnate, fun ⟨_, hann⟩ k c hc hk => ?_, fun h => ⟨hassegnate, fun k c hc hk => ?_⟩⟩
  · rw [← hrisu hc hk]
    exact hann k c hc hk
  · rw [hrisu hc hk]
    exact h k c hc hk

/-- A call with `risu` not set before it. -/
def creaMuta : CreaSem where
  mem := fun _ => 0
  valore := 1
  idx := 0x5000
  risu := 0x5004
  distinte := by decide

/-- The image after `kernel_init`. -/
def inizializzato : Kernel := dopo (kernelInit 0x5000 0x5004 (pila 0x100000) caricato)

theorem inizializzato_libero (i : Fin MAXSEMS) : (inizializzato.dessem i).busy = false := by
  have h := kernelInit_dessem (dopo_eq (x := kernelInit 0x5000 0x5004 (pila 0x100000) caricato)
    (by decide))
  exact congrArg (fun f => (f i).busy) h

/-- A call with `risu` set before it. -/
def creaPronta : CreaSem := { creaMuta with mem := fun _ => 1 }

/-- The condition is met by callers who set `risu` first, the last of whom is refused. -/
theorem assegnazione_corsa :
    Assegnate inizializzato (List.replicate (MAXSEMS + 1) creaPronta) ∧
      Annunciate inizializzato (List.replicate (MAXSEMS + 1) creaPronta) := by
  apply (assegnazione inizializzato_libero (List.replicate (MAXSEMS + 1) creaPronta)).2.mpr
  intro k c hc _
  obtain rfl := List.eq_of_mem_replicate (List.mem_of_getElem? hc)
  rfl

/-- The first call takes a semaphore and leaves `risu` at `false`. -/
theorem semaforo_taciuto : ¬ (Assegnate inizializzato [creaMuta] ∧
    Annunciate inizializzato [creaMuta]) := fun ⟨_, h⟩ => by
  have hrisu : (creaMuta.esegui inizializzato).mem creaMuta.risu = 1 :=
    h 0 creaMuta rfl (by decide)
  have hsome : inizializzato.cercaSem = some ⟨MAXSEMS - 1 - 0, by decide⟩ :=
    Occupati.cercaSem_some (.iniziale inizializzato_libero) (by decide)
  rw [CreaSem.risu_intatto hsome] at hrisu
  cases hrisu

end Pitos
