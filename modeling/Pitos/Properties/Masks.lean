import Mathlib.Data.List.Induction
import Mathlib.Tactic.IntervalCases
import Pitos.Kernel.Controllers

/-!
# The lines of the two controllers

A call acts on one line (`agisce`): the one it names, but for 8, which `irq > 8` sends to the
first bit of the master. So a sequence of calls leaves each line as the last call that names it
says exactly as long as line 8 is only masked, and only while line 0 is masked too.
-/

namespace Pitos

open Lib

namespace I8259

inductive Chiamata
  | mask (irq : Word)
  | unmask (irq : Word)
  deriving DecidableEq

namespace Chiamata

def irq : Chiamata → Word
  | mask i | unmask i => i

def scopre : Chiamata → Bool
  | mask _ => false
  | unmask _ => true

end Chiamata

def esegui (s : Controllori) : Chiamata → Controllori
  | .mask i => s.i8259Mask i
  | .unmask i => s.i8259Unmask i

/-- The line is not masked in the pair of mask registers. -/
def aperta (s : Controllori) (i : Nat) : Bool :=
  if i < 8 then !s.master.imr.getLsbD i else !s.slave.imr.getLsbD (i - 8)

/-- Both controllers take what is written at their second port as the mask. -/
def Pronti (s : Controllori) : Prop := s.master.attese = 0 ∧ s.slave.attese = 0

/-- The line a call acts on. -/
def agisce (c : Chiamata) : Nat := if c.irq.toNat = 8 then 0 else c.irq.toNat

variable {s : Controllori} {c : Chiamata} {i : Nat}

/-! ## One call -/

theorem pronti_init (s : Controllori) : Pronti s.i8259Init := ⟨rfl, rfl⟩

theorem aperta_init (s : Controllori) (h : i < 16) : aperta s.i8259Init i = false := by
  have hmaster : s.i8259Init.master.imr = 0xFF := rfl
  have hslave : s.i8259Init.slave.imr = 0xFF := rfl
  rw [aperta, hmaster, hslave]
  interval_cases i <;> rfl

/-- `1 << (irq & 7)` -/
theorem getLsbD_uno (irq : Word) (j : Nat) :
    ((1 : Word) <<< (irq &&& 7)).getLsbD j = decide (j = irq.toNat % 8) := by
  have h7 : (irq &&& 7).toNat = irq.toNat % 8 := by
    rw [BitVec.toNat_and]
    exact Nat.and_two_pow_sub_one_eq_mod irq.toNat 3
  have hlt : irq.toNat % 8 < 32 := by omega
  rw [BitVec.shiftLeft_eq', h7, BitVec.getLsbD_shiftLeft]
  by_cases hj : j = irq.toNat % 8
  · simp [hj, hlt]
  · simp [hj]
    omega

theorem getLsbD_mette (x : BitVec 8) (w : Word) {j : Nat} (hj : j < 8) :
    ((x.setWidth 32 ||| w).setWidth 8).getLsbD j = (x.getLsbD j || w.getLsbD j) := by
  have h32 : j < 32 := by omega
  simp [hj, h32]

theorem getLsbD_toglie (x : BitVec 8) (w : Word) {j : Nat} (hj : j < 8) :
    ((x.setWidth 32 &&& ~~~w).setWidth 8).getLsbD j = (x.getLsbD j && !w.getLsbD j) := by
  have h32 : j < 32 := by omega
  simp [hj, h32]

/-- The controller that is chosen: the slave from line 9 on. -/
theorem porta_eq {irq : Word} (h : irq.toNat < 16) :
    Controllori.porta irq = if irq.toNat ≤ 8 then MASTER + 1 else SLAVE + 1 := by
  have hslt : (8 : Word).slt irq ↔ 8 < irq.toNat := by
    have h8 : (8 : Word).toInt = 8 := rfl
    rw [BitVec.slt_iff_toInt_lt, BitVec.toInt_eq_toNat_of_lt (x := irq) (by omega), h8]
    omega
  unfold Controllori.porta
  by_cases h8 : irq.toNat ≤ 8
  · rw [if_pos h8, if_neg (by rw [hslt]; omega)]
  · rw [if_neg h8, if_pos (by rw [hslt]; omega)]

theorem outb_master (h : Pronti s) (v : BitVec 8) :
    s.outb (MASTER + 1) v = { s with master := { s.master with imr := v } } := by
  have hdato : s.master.dato v = { s.master with imr := v } := if_pos h.1
  rw [← hdato]
  rfl

theorem outb_slave (h : Pronti s) (v : BitVec 8) :
    s.outb (SLAVE + 1) v = { s with slave := { s.slave with imr := v } } := by
  have hdato : s.slave.dato v = { s.slave with imr := v } := if_pos h.2
  rw [← hdato]
  rfl

/-- The byte a call writes back. -/
def scritto (x : BitVec 8) : Chiamata → BitVec 8
  | .mask irq => (x.setWidth 32 ||| (1 : Word) <<< (irq &&& 7)).setWidth 8
  | .unmask irq => (x.setWidth 32 &&& ~~~((1 : Word) <<< (irq &&& 7))).setWidth 8

theorem getLsbD_scritto (x : BitVec 8) {j : Nat} (hj : j < 8) : (!(scritto x c).getLsbD j) =
    if j = c.irq.toNat % 8 then c.scopre else !x.getLsbD j := by
  cases c with
  | mask irq =>
    simp only [scritto, getLsbD_mette x _ hj, getLsbD_uno, Chiamata.irq, Chiamata.scopre]
    by_cases hji : j = irq.toNat % 8 <;> simp [hji]
  | unmask irq =>
    simp only [scritto, getLsbD_toglie x _ hj, getLsbD_uno, Chiamata.irq, Chiamata.scopre]
    by_cases hji : j = irq.toNat % 8 <;> simp [hji]

/-- Lines up to 8 go to the master, the others to the slave. -/
theorem esegui_eq (h : Pronti s) (hc : c.irq.toNat < 16) : esegui s c =
    if c.irq.toNat ≤ 8 then { s with master := { s.master with imr := scritto s.master.imr c } }
    else { s with slave := { s.slave with imr := scritto s.slave.imr c } } := by
  have hporta := porta_eq hc
  by_cases h8 : c.irq.toNat ≤ 8
  · rw [if_pos h8] at hporta ⊢
    cases c with
    | mask irq =>
      have hmaster : Controllori.porta irq = MASTER + 1 := hporta
      rw [esegui, Controllori.i8259Mask, hmaster, outb_master h]
      rfl
    | unmask irq =>
      have hmaster : Controllori.porta irq = MASTER + 1 := hporta
      rw [esegui, Controllori.i8259Unmask, hmaster, outb_master h]
      rfl
  · rw [if_neg h8] at hporta ⊢
    cases c with
    | mask irq =>
      have hslave : Controllori.porta irq = SLAVE + 1 := hporta
      rw [esegui, Controllori.i8259Mask, hslave, outb_slave h]
      rfl
    | unmask irq =>
      have hslave : Controllori.porta irq = SLAVE + 1 := hporta
      rw [esegui, Controllori.i8259Unmask, hslave, outb_slave h]
      rfl

theorem Pronti.esegui (h : Pronti s) (hc : c.irq.toNat < 16) : Pronti (esegui s c) := by
  rw [esegui_eq h hc]
  split <;> exact h

/-- A call sets the line it acts on and no other. -/
theorem aperta_esegui (h : Pronti s) (hc : c.irq.toNat < 16) (hi : i < 16) :
    aperta (esegui s c) i = if i = agisce c then c.scopre else aperta s i := by
  rw [esegui_eq h hc]
  unfold aperta agisce
  by_cases h8 : c.irq.toNat ≤ 8
  · rw [if_pos h8]
    by_cases hlow : i < 8
    · rw [if_pos hlow, if_pos hlow, getLsbD_scritto _ hlow]
      have hbit : i = c.irq.toNat % 8 ↔ i = if c.irq.toNat = 8 then 0 else c.irq.toNat := by
        split <;> omega
      simp only [hbit]
    · have hne : ¬ i = if c.irq.toNat = 8 then 0 else c.irq.toNat := by
        split <;> omega
      rw [if_neg hlow, if_neg hlow, if_neg hne]
  · rw [if_neg h8, if_neg (by omega : ¬ c.irq.toNat = 8)]
    by_cases hlow : i < 8
    · rw [if_pos hlow, if_pos hlow, if_neg (by omega)]
    · rw [if_neg hlow, if_neg hlow, getLsbD_scritto _ (by omega)]
      have hbit : i - 8 = c.irq.toNat % 8 ↔ i = c.irq.toNat := by omega
      simp only [hbit]

/-! ## Sequences of calls -/

def corsa (s : Controllori) (cs : List Chiamata) : Controllori := cs.foldl esegui s.i8259Init

/-- Whether the last call that names the line was `i8259_unmask`. -/
def scoperta (cs : List Chiamata) (i : Nat) : Bool :=
  (cs.filter fun c => c.irq.toNat = i).getLast?.any Chiamata.scopre

variable {pre cs : List Chiamata}

theorem scoperta_append (pre : List Chiamata) (c : Chiamata) (i : Nat) :
    scoperta (pre ++ [c]) i = if i = c.irq.toNat then c.scopre else scoperta pre i := by
  unfold scoperta
  rw [List.filter_append]
  by_cases hi : i = c.irq.toNat
  · simp [hi]
  · have hne : ¬ c.irq.toNat = i := fun h => hi h.symm
    simp [hi, hne]

theorem corsa_append (s : Controllori) (pre : List Chiamata) (c : Chiamata) :
    corsa s (pre ++ [c]) = esegui (corsa s pre) c := by
  rw [corsa, List.foldl_append]
  rfl

theorem pronti_corsa (s : Controllori) (hpre : ∀ c ∈ pre, c.irq.toNat < 16) :
    Pronti (corsa s pre) := by
  induction pre using List.reverseRecOn with
  | nil => exact pronti_init s
  | append_singleton pre c ih =>
    rw [corsa_append]
    apply Pronti.esegui
    · exact ih fun d hd => hpre d (List.mem_append_left _ hd)
    · exact hpre c (by simp)

theorem aperta_corsa (s : Controllori) (hpre : ∀ d ∈ pre ++ [c], d.irq.toNat < 16)
    (hi : i < 16) : aperta (corsa s (pre ++ [c])) i =
      if i = agisce c then c.scopre else aperta (corsa s pre) i := by
  rw [corsa_append]
  apply aperta_esegui
  · exact pronti_corsa s fun d hd => hpre d (List.mem_append_left _ hd)
  · exact hpre c (by simp)
  · exact hi

/-- No call acts on line 8. -/
theorem otto_chiusa (s : Controllori) (hpre : ∀ c ∈ pre, c.irq.toNat < 16) :
    aperta (corsa s pre) 8 = false := by
  induction pre using List.reverseRecOn with
  | nil => exact aperta_init s (by decide)
  | append_singleton pre c ih =>
    have hne : ¬ 8 = agisce c := by
      unfold agisce
      split <;> omega
    rw [aperta_corsa s hpre (by decide), if_neg hne]
    exact ih fun d hd => hpre d (List.mem_append_left _ hd)

theorem agisce_otto (h : c.irq = 8) : agisce c = 0 := by
  rw [agisce, h]
  rfl

theorem agisce_nominata (h : c.irq ≠ 8) : agisce c = c.irq.toNat := by
  have hne : ¬ c.irq.toNat = 8 := fun h8 => h (BitVec.eq_of_toNat_eq h8)
  rw [agisce, if_neg hne]

/-- A call on line 8 that does no harm: line 0, which it acts on, is masked and stays so. -/
def Innocua (pre : List Chiamata) (c : Chiamata) : Prop :=
  c.irq = 8 → c.scopre = false ∧ scoperta pre 0 = false

/-- The lines after a sequence of harmless calls. -/
theorem aperta_innocua (s : Controllori) (hpre : ∀ c ∈ pre, c.irq.toNat < 16)
    (hok : ∀ pre' c, pre' ++ [c] <+: pre → Innocua pre' c) (hi : i < 16) :
    aperta (corsa s pre) i = scoperta pre i := by
  induction pre using List.reverseRecOn with
  | nil => exact aperta_init s hi
  | append_singleton pre c ih =>
    have hbefore : aperta (corsa s pre) i = scoperta pre i := by
      apply ih
      · exact fun d hd => hpre d (List.mem_append_left _ hd)
      · exact fun pre' d hd => hok pre' d (hd.trans (List.prefix_append _ _))
    rw [aperta_corsa s hpre hi, scoperta_append, hbefore]
    by_cases h8 : c.irq = 8
    · obtain ⟨hmask, hclosed⟩ := hok pre c (List.prefix_refl _) h8
      have hirq : c.irq.toNat = 8 := congrArg BitVec.toNat h8
      rw [agisce_otto h8, hmask, hirq]
      by_cases hi0 : i = 0
      · rw [if_pos hi0, if_neg (by omega), hi0, hclosed]
      · rw [if_neg hi0]
        split
        · rename_i hi8
          rw [hi8] at hbefore ⊢
          rw [← hbefore]
          exact otto_chiusa s fun d hd => hpre d (List.mem_append_left _ hd)
        · rfl
    · rw [agisce_nominata h8]

/-- In every sequence of calls after the initialization: every line is at every moment as the last
call that names it says, and no call changes another line, if and only if line 8 is never
unmasked and never masked while line 0 is unmasked. -/
theorem linee (s : Controllori) (cs : List Chiamata) (hcs : ∀ c ∈ cs, c.irq.toNat < 16) :
    ((∀ pre, pre <+: cs → ∀ i < 16, aperta (corsa s pre) i = scoperta pre i) ∧
      ∀ pre c, pre ++ [c] <+: cs → ∀ i < 16, i ≠ c.irq.toNat →
        aperta (corsa s (pre ++ [c])) i = aperta (corsa s pre) i) ↔
      ∀ pre c, pre ++ [c] <+: cs → Innocua pre c := by
  constructor
  · rintro ⟨hlast, hother⟩ pre c hpre h8
    have hin : ∀ d ∈ pre ++ [c], d.irq.toNat < 16 := fun d hd => hcs d (hpre.subset hd)
    have hirq : c.irq.toNat = 8 := congrArg BitVec.toNat h8
    have hmask : c.scopre = false := by
      have height := hlast (pre ++ [c]) hpre 8 (by decide)
      rw [otto_chiusa s hin, scoperta_append, if_pos hirq.symm] at height
      exact height.symm
    refine ⟨hmask, ?_⟩
    have hzero := hother pre c hpre 0 (by decide) (by omega)
    rw [aperta_corsa s hin (by decide), agisce_otto h8, if_pos rfl, hmask] at hzero
    rw [← hlast pre ((List.prefix_append _ _).trans hpre) 0 (by decide)]
    exact hzero.symm
  · intro hok
    have hlast : ∀ pre, pre <+: cs → ∀ i < 16, aperta (corsa s pre) i = scoperta pre i := by
      intro pre hpre i hi
      apply aperta_innocua s _ _ hi
      · exact fun d hd => hcs d (hpre.subset hd)
      · exact fun pre' d hd => hok pre' d (hd.trans hpre)
    refine ⟨hlast, ?_⟩
    intro pre c hpre i hi hne
    have hbefore := hlast pre ((List.prefix_append _ _).trans hpre) i hi
    rw [hlast (pre ++ [c]) hpre i hi, scoperta_append, if_neg hne, hbefore]

/-- Controllers that have just been switched on. -/
def spenti : Controllori := ⟨⟨0, 0⟩, ⟨0, 0⟩⟩

/-- Unmasking line 8 unmasks line 0 in its place. -/
theorem otto_apre_zero :
    aperta (corsa spenti [.unmask 8]) 8 = false ∧ aperta (corsa spenti [.unmask 8]) 0 = true ∧
      scoperta [.unmask 8] 8 = true ∧ scoperta [.unmask 8] 0 = false := by
  decide

theorem linee_timer_tastiera :
    aperta (corsa spenti [.unmask 1, .unmask 9, .mask 0, .mask 9]) 1 = true ∧
      aperta (corsa spenti [.unmask 1, .unmask 9, .mask 0, .mask 9]) 9 = false := by
  have hlines := ((linee spenti [.unmask 1, .unmask 9, .mask 0, .mask 9] (by decide)).mpr
    (by
      intro pre c hpre h8
      have hmem := hpre.subset (List.mem_append_right _ (List.mem_singleton_self c))
      simp only [List.mem_cons, List.not_mem_nil, or_false] at hmem
      rcases hmem with rfl | rfl | rfl | rfl <;> exact absurd h8 (by decide))).1
  constructor
  · exact hlines _ (List.prefix_refl _) 1 (by decide)
  · exact hlines _ (List.prefix_refl _) 9 (by decide)

end I8259

end Pitos
