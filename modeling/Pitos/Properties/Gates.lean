import Pitos.Boot.Tables
import Pitos.Properties.Switching

/-!
# The doors of the kernel

What the tables written by `amain` and `kernel_init` mean to the processor, and stay meaning however
often `idtSetEntry` is called afterwards. Every vector has a gate into level 0, and only that of the
system call lets a program in. The entry through any of them is `Macchina.interruzione`, which the
other modules take for what an interrupt does.
-/

namespace Pitos

open Lib

variable {ind : Indirizzi} {t : Tabelle} {n k idx : Nat} {off : Word} {dpl : BitVec 2}

/-! ## The gates -/

theorem alta_bassa (o : Word) : alta o ++ bassa o = o := by
  unfold alta bassa
  exact BitVec.extractLsb'_append_extractLsb'

/-- A vector leads to the code at `off`, for programs of level `dpl` or inside. -/
def Tabelle.Porta (t : Tabelle) (n : Nat) (off : Word) (dpl : BitVec 2) : Prop :=
  Gate.decode ((t.idt n).h ++ (t.idt n).l) = Gate.interrupt 8 off dpl

theorem voce_bassa (o : Word) : 0x80000 ||| (o &&& 0xFFFF) = (8 : BitVec 16) ++ bassa o := by
  apply BitVec.eq_of_getLsbD_eq
  intro i hi
  unfold bassa
  simp only [BitVec.getLsbD_or, BitVec.getLsbD_and, BitVec.getLsbD_append,
    BitVec.getLsbD_extractLsb']
  interval_cases i <;> simp

theorem voce_alta (o w : Word) (hw : alta w = 0) :
    (o &&& 0xFFFF0000) ||| w = alta o ++ bassa w := by
  apply BitVec.eq_of_getLsbD_eq
  intro i hi
  have hi' : 16 ≤ i → w.getLsbD i = false := by
    intro h16
    have h := congrArg (fun v : BitVec 16 => v.getLsbD (i - 16)) hw
    unfold alta at h
    rw [BitVec.getLsbD_extractLsb', Nat.add_sub_cancel' h16] at h
    simpa [show i - 16 < 16 by omega] using h
  unfold alta bassa
  simp only [BitVec.getLsbD_or, BitVec.getLsbD_and, BitVec.getLsbD_append,
    BitVec.getLsbD_extractLsb']
  by_cases h16 : i < 16
  · simp only [h16, decide_true, Bool.true_and, if_true, Nat.zero_add]
    interval_cases i <;> simp
  · simp only [h16, if_false, hi' (by omega), Bool.or_false, show 16 + (i - 16) = i by omega]
    interval_cases i <;> simp

theorem porta_voce {e : IdtEntry} {w : BitVec 16} (he : t.idt n = e) (hl : e.l = 8#16 ++ bassa off)
    (hh : e.h = alta off ++ w) (hkind : w.extractLsb' 8 5 = Gate.INTERRUPT)
    (hdpl : w.extractLsb' 13 2 = dpl) (hp : w.getLsbD 15 = true) : t.Porta n off dpl := by
  unfold Tabelle.Porta
  rw [he, hl, hh, Gate.decode_append, alta_bassa, hkind, hdpl, hp]
  rfl

theorem idtSetupT_apply (e : IdtEntry) (ecx edi : Nat) (idt : Nat → IdtEntry) (i : Nat) :
    idtSetupT e ecx edi idt i = if edi ≤ i ∧ i < edi + ecx then e else idt i := by
  induction ecx generalizing edi idt with
  | zero => rw [idtSetupT, if_neg (by omega)]
  | succ ecx ih =>
    rw [idtSetupT, ih]
    by_cases hi : i = edi
    · subst hi
      rw [if_neg (by omega), if_pos (by omega), Function.update_self]
    · rw [Function.update_of_ne hi]
      by_cases h : edi + 1 ≤ i ∧ i < edi + 1 + ecx
      · rw [if_pos h, if_pos (by omega)]
      · rw [if_neg h, if_neg (by omega)]

/-- The entry that `idtSetup` writes everywhere. -/
def voceIgnora (ind : Indirizzi) : IdtEntry where
  l := (8 : BitVec 16) ++ bassa ind.ignoreInt
  h := alta ind.ignoreInt ++ (0x8E00 : BitVec 16)

theorem idtSetup_apply (ind : Indirizzi) (eax : Word) (idt : Nat → IdtEntry) (hn : n < 256) :
    idtSetup ind eax idt n = voceIgnora ind := by
  have h8 : alta ((alta eax ++ (8 : BitVec 16)) <<< 16) = 8 := by
    apply BitVec.eq_of_getLsbD_eq
    intro i hi
    unfold alta
    simp only [BitVec.getLsbD_extractLsb', BitVec.getLsbD_shiftLeft, BitVec.getLsbD_append]
    interval_cases i <;> simp
  have hT := idtSetupT_apply
    { l := alta ((alta eax ++ (8 : BitVec 16)) <<< 16) ++ bassa ind.ignoreInt
      h := alta ind.ignoreInt ++ (0x8E00 : BitVec 16) } 256 0 idt n
  rw [if_pos ⟨Nat.zero_le n, by omega⟩] at hT
  refine Eq.trans ?_ (hT.trans ?_)
  · rfl
  · rw [h8, voceIgnora]

theorem amain_porta (ind : Indirizzi) (eax : Word) (hn : n < 256) :
    (amain ind eax).Porta n ind.ignoreInt 0 := by
  have h : (amain ind eax).idt n = voceIgnora ind := by
    rw [amain]
    dsimp only
    exact idtSetup_apply ind eax _ hn
  exact porta_voce h rfl rfl (by decide) (by decide) (by decide)

/-- The gates of a table. -/
def Tabelle.Descrive (t : Tabelle) (f : Nat → Word × BitVec 2) : Prop :=
  ∀ n, n < 256 → t.Porta n (f n).1 (f n).2

variable {f : Nat → Word × BitVec 2}

theorem Tabelle.Descrive.aggiorna {e : IdtEntry} (h : t.Descrive f) {t' : Tabelle}
    (hidt : t'.idt = Function.update t.idt k e) (hk : t'.Porta k off dpl) :
    t'.Descrive (Function.update f k (off, dpl)) := by
  intro n hn
  by_cases hnk : n = k
  · subst hnk
    rw [Function.update_self]
    exact hk
  · rw [Function.update_of_ne hnk]
    have hsame : t'.idt n = t.idt n := by
      rw [hidt, Function.update_of_ne hnk]
    have hport := h n hn
    unfold Tabelle.Porta at hport ⊢
    rwa [hsame]

/-- The gates after a call of `idtSetEntry`. -/
def conVoce (ind : Indirizzi) (idx : Int) (f : Nat → Word × BitVec 2) : Nat → Word × BitVec 2 :=
  if idx < 0 ∨ idx ≥ 256 then f
  else Function.update f idx.toNat (Tabelle.trampolino ind idx, 0)

theorem Tabelle.Descrive.idtSetEntry (ind : Indirizzi) (h : t.Descrive f) (idx : Int) (fx : Word) :
    (t.idtSetEntry ind idx fx).Descrive (conVoce ind idx f) := by
  unfold Tabelle.idtSetEntry conVoce
  split
  · exact h
  · refine h.aggiorna rfl (porta_voce (w := 0x8E00) (Function.update_self _ _ _)
      (voce_bassa _) ?_ (by decide) (by decide) (by decide))
    exact voce_alta _ 0x8E00 (by decide)

theorem Tabelle.Descrive.idtSetEntryAsm (h : t.Descrive f) (idx : Nat) (fx : Word)
    (level : BitVec 2) : (t.idtSetEntryAsm idx fx (level.setWidth 32)).Descrive
      (Function.update f idx (fx, level)) := by
  refine h.aggiorna rfl (porta_voce (w := bassa (0x8E00 ||| level.setWidth 32 <<< 13))
    (Function.update_self _ _ _) (voce_bassa _) ?_ ?_ ?_ ?_)
  · rw [BitVec.or_assoc]
    refine voce_alta _ _ ?_
    revert level
    decide
  · revert level
    decide
  · revert level
    decide
  · revert level
    decide

/-- Of the calls of `idtSetEntry` only the vectors matter. -/
theorem foldl_conVoce (l : List (Int × Word)) (f : Nat → Word × BitVec 2) (hn : n < 256) :
    l.foldl (fun f x => conVoce ind x.1 f) f n =
      if (n : Int) ∈ l.map Prod.fst then (Tabelle.trampolino ind n, 0) else f n := by
  induction l generalizing f with
  | nil => simp
  | cons x l ih =>
    rw [List.foldl_cons, ih, List.map_cons]
    by_cases hl : (n : Int) ∈ l.map Prod.fst
    · rw [if_pos hl, if_pos (List.mem_cons_of_mem _ hl)]
    · rw [if_neg hl]
      by_cases hx : (n : Int) = x.1
      · rw [← hx, if_pos List.mem_cons_self, conVoce, if_neg (by omega), Int.toNat_natCast,
          Function.update_self]
      · have hnot : (n : Int) ∉ x.1 :: l.map Prod.fst := by
          rw [List.mem_cons, not_or]
          exact ⟨hx, hl⟩
        rw [if_neg hnot]
        unfold conVoce
        split
        · rfl
        · rw [Function.update_of_ne (by omega)]

theorem Tabelle.Descrive.installa (ind : Indirizzi) (h : t.Descrive f) (l : List (Int × Word)) :
    (t.installa ind l).Descrive (l.foldl (fun f x => conVoce ind x.1 f) f) := by
  induction l generalizing t f with
  | nil => exact h
  | cons x l ih => exact ih (h.idtSetEntry ind x.1 x.2)

/-- The vectors of `exceptions_install`. -/
def vettoriEccezioni : List Nat := (List.range 20).filter (· ≠ 15)

theorem exceptionsInstall_eq (t : Tabelle) : t.exceptionsInstall ind =
    t.installa ind (vettoriEccezioni.map fun (i : Nat) => ((i : Int), ind.handlerNoCode)) := by
  unfold Tabelle.exceptionsInstall Tabelle.installa vettoriEccezioni
  rw [List.foldl_map, List.foldl_filter]
  simp only [decide_eq_true_eq]

theorem Tabelle.kernelInit_eq (t : Tabelle) : t.kernelInit ind =
    ((((t.idtSetEntry ind (0x20 + 1) ind.loggingKbCallback).installa ind
      (vettoriEccezioni.map fun (i : Nat) => ((i : Int), ind.handlerNoCode))).idtSetEntryAsm
        0x30 ind.syscalle 3).idtSetEntryAsm 0x20 ind.acdriverT 0) := by
  rw [← exceptionsInstall_eq]
  rfl

/-- The code to which a vector leads after `kernel_init` and the calls `l` of `idtSetEntry`. -/
def gestore (ind : Indirizzi) (l : List (Int × Word)) (n : Nat) : Word :=
  if (n : Int) ∈ l.map Prod.fst then Tabelle.trampolino ind n
  else if n = 0x20 then ind.acdriverT
  else if n = 0x30 then ind.syscalle
  else if n = 0x21 ∨ (n < 20 ∧ n ≠ 15) then Tabelle.trampolino ind n
  else ind.ignoreInt

/-- The outermost level from which a program may use the gate of a vector. -/
def livelloPorta (l : List (Int × Word)) (n : Nat) : BitVec 2 :=
  if n = 0x30 ∧ (n : Int) ∉ l.map Prod.fst then 3 else 0

/-- The tables after `kernel_init` and the calls `l` of `idtSetEntry`. -/
def avviate (ind : Indirizzi) (eax : Word) (l : List (Int × Word)) : Tabelle :=
  ((amain ind eax).kernelInit ind).installa ind l

theorem avviate_porta (ind : Indirizzi) (eax : Word) (l : List (Int × Word)) (hn : n < 256) :
    (avviate ind eax l).Porta n (gestore ind l n) (livelloPorta l n) := by
  have hbase : (amain ind eax).Descrive fun _ => (ind.ignoreInt, 0) :=
    fun n hn => amain_porta ind eax hn
  have hecc := (hbase.idtSetEntry ind (0x20 + 1) ind.loggingKbCallback).installa ind
    (vettoriEccezioni.map fun (i : Nat) => ((i : Int), ind.handlerNoCode))
  have hinit := ((hecc.idtSetEntryAsm 0x30 ind.syscalle 3).idtSetEntryAsm 0x20 ind.acdriverT 0)
  have h := (hinit.installa ind l) n hn
  rw [foldl_conVoce l _ hn] at h
  unfold avviate
  rw [Tabelle.kernelInit_eq]
  have hmem : (n : Int) ∈ (vettoriEccezioni.map fun (i : Nat) => ((i : Int), ind.handlerNoCode)).map
      Prod.fst ↔ n < 20 ∧ n ≠ 15 := by
    simp [vettoriEccezioni]
  have hlev : ¬ (n = 0x30 ∧ (n : Int) ∉ l.map Prod.fst) → livelloPorta l n = 0 :=
    fun h => if_neg h
  unfold gestore
  by_cases hl : (n : Int) ∈ l.map Prod.fst
  · rw [if_pos hl] at h
    rw [if_pos hl, hlev fun hc => hc.2 hl]
    exact h
  · rw [if_neg hl] at h
    rw [if_neg hl]
    by_cases h20 : n = 0x20
    · subst h20
      rw [Function.update_self] at h
      rw [if_pos rfl, hlev (by omega)]
      exact h
    · rw [Function.update_of_ne h20] at h
      rw [if_neg h20]
      by_cases h30 : n = 0x30
      · subst h30
        rw [Function.update_self] at h
        rw [if_pos rfl, livelloPorta, if_pos ⟨rfl, hl⟩]
        exact h
      · rw [Function.update_of_ne h30, foldl_conVoce _ _ hn] at h
        rw [if_neg h30, hlev fun hc => h30 hc.1]
        by_cases hv : n < 20 ∧ n ≠ 15
        · rw [if_pos (hmem.mpr hv)] at h
          rw [if_pos (Or.inr hv)]
          exact h
        · rw [if_neg (hmem.not.mpr hv)] at h
          by_cases h21 : n = 0x21
          · subst h21
            exact h
          · rw [if_neg (by omega)]
            unfold conVoce at h
            rw [if_neg (by decide), Function.update_of_ne (by omega)] at h
            exact h

/-! ## The segments -/

@[simp] theorem Tabelle.idtSetEntry_gdt (idx : Int) (fx : Word) :
    (t.idtSetEntry ind idx fx).gdt = t.gdt := by
  unfold Tabelle.idtSetEntry
  split <;> rfl

theorem Tabelle.installa_gdt (l : List (Int × Word)) : (t.installa ind l).gdt = t.gdt := by
  induction l generalizing t with
  | nil => rfl
  | cons x l ih => exact ih.trans (t.idtSetEntry_gdt x.1 x.2)

@[simp] theorem Tabelle.idtSetEntryAsm_gdt (idx : Nat) (fx level : Word) :
    (t.idtSetEntryAsm idx fx level).gdt = t.gdt := rfl

theorem Tabelle.kernelInit_gdt : (t.kernelInit ind).gdt = t.gdt := by
  rw [Tabelle.kernelInit_eq, Tabelle.idtSetEntryAsm_gdt, Tabelle.idtSetEntryAsm_gdt,
    Tabelle.installa_gdt, Tabelle.idtSetEntry_gdt]

theorem avviate_gdt (ind : Indirizzi) (eax : Word) (l : List (Int × Word)) :
    (avviate ind eax l).gdt = (amain ind eax).gdt :=
  (Tabelle.installa_gdt l).trans Tabelle.kernelInit_gdt

/-- Of `_TSS` below 16 MB the highest byte is 0. -/
theorem selettoreTr_eq {tss : Word} (h : tss.toNat < 2 ^ 24) : selettoreTr tss = 0x28 := by
  have hlt : (tss >>> 16).toNat < 2 ^ 8 := by
    rw [BitVec.toNat_ushiftRight, Nat.shiftRight_eq_div_pow]
    omega
  have hzero : (tss >>> 16) &&& ~~~(0xFF : Word) = 0 := by
    apply BitVec.eq_of_getLsbD_eq
    intro i hi
    rw [BitVec.getLsbD_and]
    by_cases h8 : i < 8
    · interval_cases i <;> simp
    · have hf : (tss >>> 16).getLsbD i = false :=
        Nat.testBit_lt_two_pow (hlt.trans_le (Nat.pow_le_pow_right (by decide) (by omega)))
      rw [hf]
      simp
  unfold selettoreTr
  rw [hzero]
  decide

theorem getLsbD_scriviByte (d : BitVec 64) {off i : Nat} (b : BitVec 8) (hi : i < 64) :
    (scriviByte d off b).getLsbD i =
      if 8 * off ≤ i ∧ i < 8 * off + 8 then b.getLsbD (i - 8 * off) else d.getLsbD i := by
  have hff : ∀ j, (0xFF : BitVec 64).getLsbD j = decide (j < 8) := by
    intro j
    by_cases hj : j < 64
    · interval_cases j <;> decide
    · rw [BitVec.getLsbD_of_ge _ _ (by omega), decide_eq_false (by omega)]
  unfold scriviByte
  rw [BitVec.getLsbD_or, BitVec.getLsbD_and, BitVec.getLsbD_not, BitVec.getLsbD_shiftLeft,
    BitVec.getLsbD_shiftLeft, BitVec.getLsbD_setWidth, hff]
  by_cases h : 8 * off ≤ i
  · by_cases h8 : i < 8 * off + 8
    · simp [h, h8, hi, show i - 8 * off < 8 by omega, show ¬ i < 8 * off by omega,
        show i - 8 * off < 64 by omega]
    · simp [h, h8, hi, show ¬ i - 8 * off < 8 by omega, show ¬ i < 8 * off by omega,
        BitVec.getLsbD_of_ge b (i - 8 * off) (by omega)]
  · simp [h, hi, show i < 8 * off by omega]

theorem getLsbD_dtssIndirizzo (d : BitVec 64) (tss : Word) {i : Nat} (hi : i < 64) :
    (dtssIndirizzo d tss).getLsbD i =
      if 16 ≤ i ∧ i < 40 then tss.getLsbD (i - 16)
      else if 56 ≤ i then tss.getLsbD (i - 32)
      else d.getLsbD i := by
  unfold dtssIndirizzo scriviWord bassa
  simp only [getLsbD_scriviByte _ _ hi, BitVec.getLsbD_extractLsb', BitVec.getLsbD_ushiftRight]
  have h56 : 56 ≤ i → 16 + (0 + (i - 8 * 7)) + 8 = i - 32 := by omega
  have h32 : 32 ≤ i → 16 + (0 + (i - 8 * 4)) = i - 16 := by omega
  have h24 : 24 ≤ i → 0 + (8 + (i - 8 * (2 + 1))) = i - 16 := by omega
  have h16 : 16 ≤ i → 0 + (0 + (i - 8 * 2)) = i - 16 := by omega
  grind

/-- The descriptor of `_TSS`, with the busy bit. -/
theorem decode_dtss (tss : Word) :
    Segment.decode (dtssIndirizzo (gdtIniziale 5) tss ||| (2 : BitVec 64) <<< 40) =
      { base := tss, limit := 105, kind := 0xB, dpl := 3, present := true, granular := false } := by
  have hbit : ∀ i, i < 64 → (dtssIndirizzo (gdtIniziale 5) tss |||
      (2 : BitVec 64) <<< 40).getLsbD i =
      if 16 ≤ i ∧ i < 40 then tss.getLsbD (i - 16)
      else if 56 ≤ i then tss.getLsbD (i - 32)
      else (0x0000EB0000000069 : BitVec 64).getLsbD i := by
    intro i hi
    have h2 : ∀ j, 2 ≤ j → (2 : BitVec 64).getLsbD j = false :=
      fun j hj => Nat.testBit_lt_two_pow (Nat.lt_of_lt_of_le (by decide : 2 < 2 ^ 2)
        (Nat.pow_le_pow_right (by decide) hj))
    rw [BitVec.getLsbD_or, getLsbD_dtssIndirizzo _ _ hi]
    split
    · rename_i h
      rw [BitVec.getLsbD_shiftLeft, decide_eq_true h.2]
      simp
    · split
      · rw [BitVec.getLsbD_shiftLeft, h2 _ (by omega)]
        simp
      · rw [← BitVec.getLsbD_or]
        rfl
  -- Away from the address the bits are those of a constant.
  have hconst : ∀ k len, k + len ≤ 16 ∨ 40 ≤ k ∧ k + len ≤ 56 →
      (dtssIndirizzo (gdtIniziale 5) tss ||| (2 : BitVec 64) <<< 40).extractLsb' k len =
        (0x0000EB0000000069 : BitVec 64).extractLsb' k len := by
    intro k len hk
    apply BitVec.eq_of_getLsbD_eq
    intro i hi
    rw [BitVec.getLsbD_extractLsb', BitVec.getLsbD_extractLsb', hbit _ (by omega),
      if_neg (by omega), if_neg (by omega)]
  unfold Segment.decode
  simp only [Segment.mk.injEq]
  refine ⟨?_, ?_, ?_, ?_, ?_, ?_⟩
  · apply BitVec.eq_of_getLsbD_eq
    intro i hi
    rw [BitVec.getLsbD_append]
    by_cases h24 : i < 24
    · rw [if_pos h24, BitVec.getLsbD_extractLsb', hbit _ (by omega), if_pos (by omega),
        decide_eq_true h24, Bool.true_and, Nat.add_sub_cancel_left]
    · rw [if_neg h24, BitVec.getLsbD_extractLsb', hbit _ (by omega), if_neg (by omega),
        if_pos (by omega), decide_eq_true (by omega), Bool.true_and]
      congr 1
      omega
  · rw [hconst 48 4 (by decide), hconst 0 16 (by decide)]
    decide
  · rw [hconst 40 5 (by decide)]
    decide
  · rw [hconst 45 2 (by decide)]
    decide
  · exact hbit 47 (by decide)
  · exact hbit 55 (by decide)

theorem amain_gdt {ind : Indirizzi} (h : ind.tss.toNat < 2 ^ 24) (eax : Word) (i : Nat) :
    (amain ind eax).gdt i =
      if i = 5 then dtssIndirizzo (gdtIniziale 5) ind.tss ||| (2 : BitVec 64) <<< 40
      else gdtIniziale i := by
  have h5 : ((0x28 : Selettore) >>> 3).toNat = 5 := by decide
  unfold amain ltr
  dsimp only
  rw [selettoreTr_eq h, h5, Function.update_self]
  by_cases hi : i = 5
  · rw [if_pos hi, hi, Function.update_self]
  · rw [if_neg hi, Function.update_of_ne hi, Function.update_of_ne hi]

section Registri

variable {ind : Indirizzi} (eax : Word) (l : List (Int × Word))

/-- The segments that the tables have, with the task state among them. -/
theorem avviate_segment (htss : ind.tss.toNat < 2 ^ 24) (s : Selettore) :
    ((avviate ind eax l).registri ind).segment s =
    if s &&& 0xFFFC = 0 ∨ s.getLsbD 2 = true ∨ 256 ≤ (s >>> 3).toNat then none
    else if (s >>> 3).toNat = 5 then
      some { base := ind.tss, limit := 105, kind := 0xB, dpl := 3, present := true,
             granular := false }
    else some (Segment.decode (gdtIniziale (s >>> 3).toNat)) := by
  have hgdt : ((avviate ind eax l).registri ind).gdt = (amain ind eax).gdt := avviate_gdt ind eax l
  have hlim : ((avviate ind eax l).registri ind).gdtLimit < 8 * (s >>> 3).toNat + 7 ↔
      256 ≤ (s >>> 3).toNat := by
    change 2047 < _ ↔ _
    omega
  unfold Tables.segment
  simp only [hlim, hgdt, amain_gdt htss]
  split
  · rfl
  · split
    · rw [decode_dtss]
    · rfl

theorem avviate_task (htss : ind.tss.toNat < 2 ^ 24) : ((avviate ind eax l).registri ind).task =
    { base := ind.tss, limit := 105, kind := 0xB, dpl := 3, present := true, granular := false } := by
  have h5 : ((0x28 : Selettore) >>> 3).toNat = 5 := by decide
  have h : ((avviate ind eax l).registri ind).task = Segment.decode
      ((avviate ind eax l).gdt (selettoreTr ind.tss >>> 3).toNat) := rfl
  rw [h, avviate_gdt, selettoreTr_eq htss, h5, amain_gdt htss, if_pos rfl, decode_dtss]

theorem avviate_segment_of {s : Selettore} {i : Nat} (htss : ind.tss.toNat < 2 ^ 24)
    (hs : s &&& 0xFFFC ≠ 0) (ht : s.getLsbD 2 = false) (hi : (s >>> 3).toNat = i) (hlt : i < 5) :
    ((avviate ind eax l).registri ind).segment s = some (Segment.decode (gdtIniziale i)) := by
  have hnot : ¬ (s &&& 0xFFFC = 0 ∨ s.getLsbD 2 = true ∨ 256 ≤ (s >>> 3).toNat) := by
    rw [hi, ht]
    simp only [hs, Bool.false_eq_true, false_or]
    omega
  rw [avviate_segment eax l htss, if_neg hnot, hi, if_neg (by omega)]

/-- From any gate to the kernel. -/
theorem avviate_inner (htss : ind.tss.toNat < 2 ^ 24) (m : Macchina) :
    Tables.Inner ((avviate ind eax l).registri ind) (m.leggiTss ind) 8 Macchina.SS0
      m.kernel.tssEsp0 := by
  have htask := avviate_task eax l htss
  have hbase : ((avviate ind eax l).registri ind).task.base = ind.tss := by rw [htask]
  constructor
  · exact ⟨_, avviate_segment_of (i := 1) eax l htss (by decide) (by decide) (by decide) (by decide),
      by decide⟩
  · decide
  · exact ⟨_, avviate_segment_of (i := 2) eax l htss (by decide) (by decide) (by decide) (by decide),
      by decide⟩
  · rfl
  · rw [htask]
    exact (by decide : 9 ≤ 105)
  · have hne : ind.tss + 8 ≠ ind.tss + 4 := by bv_omega
    rw [hbase]
    unfold Macchina.leggiTss
    rw [if_neg hne, if_pos rfl]
    exact BitVec.setWidth_append_eq_right
  · rw [hbase]
    exact if_pos rfl

/-- A selector of the global table is its index and its level. -/
theorem selettore_toNat {s : Selettore} (h : s.getLsbD 2 = false) :
    s.toNat = 8 * (s >>> 3).toNat + (Tables.rpl s).toNat := by
  have hbit : s.toNat / 4 % 2 = 0 := by
    rw [BitVec.getLsbD, Nat.testBit_eq_decide_div_mod_eq, decide_eq_false_iff_not] at h
    omega
  rw [Tables.rpl, BitVec.extractLsb'_toNat, Nat.shiftRight_zero, BitVec.toNat_ushiftRight,
    Nat.shiftRight_eq_div_pow]
  omega

/-- The tables in which a selector has a segment that is present. -/
theorem avviate_segment_cases (htss : ind.tss.toNat < 2 ^ 24) {s : Selettore} {d : Segment}
    (h : ((avviate ind eax l).registri ind).segment s = some d) (hp : d.present = true) :
    s.getLsbD 2 = false ∧
      ((d.base = ind.tss ∧ d.limit = 105 ∧ d.kind = 0xB) ∨
        ∃ i, (s >>> 3).toNat = i ∧ 1 ≤ i ∧ i < 5 ∧ d = Segment.decode (gdtIniziale i)) := by
  rw [avviate_segment eax l htss] at h
  split at h
  · cases h
  · rename_i hs
    rw [not_or, not_or] at hs
    refine ⟨Bool.eq_false_iff.mpr hs.2.1, ?_⟩
    split at h
    · cases h
      exact Or.inl ⟨rfl, rfl, rfl⟩
    · rename_i h5
      cases h
      refine Or.inr ⟨_, rfl, ?_⟩
      generalize (s >>> 3).toNat = i at *
      match i, h5, hp with
      | 1, _, _ => exact ⟨by decide, by decide, rfl⟩
      | 2, _, _ => exact ⟨by decide, by decide, rfl⟩
      | 3, _, _ => exact ⟨by decide, by decide, rfl⟩
      | 4, _, _ => exact ⟨by decide, by decide, rfl⟩
      | i + 6, _, hp =>
        rw [show gdtIniziale (i + 6) = 0 from rfl] at hp
        exact absurd hp (by decide)

/-- A selector of a level, when its segment is not the task state. -/
theorem avviate_at (htss : ind.tss.toNat < 2 ^ 24) {s : Selettore} {level : BitVec 2} {d : Segment}
    (hr : Tables.rpl s = level) (hs : ((avviate ind eax l).registri ind).segment s = some d)
    (hp : d.present = true) (hl : d.dpl = level) (hk : d.kind ≠ 0xB) :
    ∃ i, 1 ≤ i ∧ i < 5 ∧ d = Segment.decode (gdtIniziale i) ∧ s.toNat = 8 * i + level.toNat := by
  obtain ⟨h2, ⟨-, -, h⟩ | ⟨i, hi, h1, h5, rfl⟩⟩ := avviate_segment_cases eax l htss hs hp
  · exact absurd h hk
  · have hnat := selettore_toNat h2
    rw [hi, hr] at hnat
    exact ⟨i, h1, h5, rfl, hnat⟩

end Registri

/-! ## The entry -/

theorem cpl_eq_zero (m : Macchina) : m.cpl = 0 ↔ Tables.rpl m.reg.cs = 0 := by
  have hand : (m.reg.cs &&& 3).toNat = m.reg.cs.toNat % 4 := by
    rw [BitVec.toNat_and]
    exact Nat.and_two_pow_sub_one_eq_mod _ 2
  have hext : (m.reg.cs.extractLsb' 0 2).toNat = m.reg.cs.toNat % 4 := by
    rw [BitVec.extractLsb'_toNat, Nat.shiftRight_zero]
  unfold Macchina.cpl Tables.rpl
  rw [← BitVec.toNat_inj, ← BitVec.toNat_inj, hand, hext]
  rfl

/-- The entry through a gate of the tables is the one that `Macchina.interruzione` makes, and the
only interrupt that is refused is one of a program that asks for a gate of level 0. -/
theorem porte (ind : Indirizzi) (htss : ind.tss.toNat < 2 ^ 24) (eax : Word)
    (l : List (Int × Word)) (m : Macchina) (n : BitVec 8) (software : Bool) :
    m.consegna ind (avviate ind eax l) n software =
      if software = true ∧ livelloPorta l n.toNat < Tables.rpl m.reg.cs then
        .error (.protection (Tables.vectorCode n true))
      else
        .ok { m.interruzione with
          reg := { m.interruzione.reg with eip := gestore ind l n.toNat } } := by
  have hn : 8 * n.toNat + 7 ≤ ((avviate ind eax l).registri ind).idtLimit := by
    change _ ≤ 2047
    omega
  have hg : Gate.decode (((avviate ind eax l).registri ind).idt n.toNat) =
      Gate.interrupt 8 (gestore ind l n.toNat) (livelloPorta l n.toNat) :=
    avviate_porta ind eax l n.isLt
  unfold Macchina.consegna
  split
  · rename_i h
    obtain ⟨rfl, hlt⟩ := h
    rw [Tables.deliver_refused hn hg hlt]
    rfl
  · rename_i h
    have hle : software = true → Tables.rpl m.reg.cs ≤ livelloPorta l n.toNat :=
      fun hs => BitVec.not_lt.mp fun hlt => h ⟨hs, hlt⟩
    rw [(avviate_inner eax l htss m).deliver hn hg hle]
    unfold Macchina.interruzione
    by_cases hc : Tables.rpl m.reg.cs = 0
    · have hcpl := (cpl_eq_zero m).mpr hc
      simp only [hc, hcpl, if_true, bind, Except.bind]
      rfl
    · have hcpl := (cpl_eq_zero m).not.mpr hc
      simp only [hc, hcpl, if_false, bind, Except.bind]
      rfl

/-- A program of level 3 may not use the gate of the timer, and is let in at that of the system
call. -/
theorem porte_corsa : ∃ (ind : Indirizzi) (m m' : Macchina),
    m.consegna ind (avviate ind 0 []) 0x20 true = .error (.protection 0x102) ∧
      m.consegna ind (avviate ind 0 []) 0x30 true = .ok m' ∧ m'.reg.eip = ind.syscalle := by
  let ind : Indirizzi :=
    { ignoreInt := 0x30100, syscalle := 0x31000, acdriverT := 0x31200, handlerNoCode := 0x32000
      loggingKbCallback := 0x33000, idtTramps := 0x36000, tss := 0x3A000 }
  let m : Macchina :=
    { reg := registriNuovi (fun _ => 0) 0x40000 (pila 0x20000), kernel := caricato }
  have h20 := porte ind (by decide) 0 [] m 0x20 true
  have h30 := porte ind (by decide) 0 [] m 0x30 true
  rw [if_pos (by decide)] at h20
  rw [if_neg (by decide)] at h30
  exact ⟨ind, m, _, h20, h30, rfl⟩

/-- There are the levels 0 and 3, each with one selector for its code and one for its stack, and the
segments are the whole memory, when `_TSS` is linked below 16 MB. -/
theorem livelli (ind : Indirizzi) (htss : ind.tss.toNat < 2 ^ 24) (eax : Word)
    (l : List (Int × Word)) (s : Selettore) (level : BitVec 2) :
    (((avviate ind eax l).registri ind).RunsAt level s ↔
      level = 0 ∧ s = bassa SYSTEMCODESEL ∨ level = 3 ∧ s = bassa USERCODESEL) ∧
    (((avviate ind eax l).registri ind).StackAt level s ↔
      level = 0 ∧ s = Macchina.SS0 ∨ level = 3 ∧ s = bassa USERDSSEL) ∧
    ∀ d, ((avviate ind eax l).registri ind).segment s = some d → d.present = true →
      d.isCode ∨ d.isWritable → d.base = 0 ∧ d.last = 2 ^ 32 - 1 := by
  have hof : ∀ {s : Selettore} {i : Nat}, s &&& 0xFFFC ≠ 0 → s.getLsbD 2 = false →
      (s >>> 3).toNat = i → i < 5 → ((avviate ind eax l).registri ind).segment s =
        some (Segment.decode (gdtIniziale i)) :=
    fun hs ht hi hlt => avviate_segment_of eax l htss hs ht hi hlt
  have heq : ∀ {v : Selettore} {n : Nat}, s.toNat = n → v.toNat = n → s = v :=
    fun hs hv => BitVec.eq_of_toNat_eq (hs.trans hv.symm)
  refine ⟨⟨?_, ?_⟩, ⟨?_, ?_⟩, ?_⟩
  · intro h
    obtain ⟨hr, d, hs, hp, hl, hc⟩ := h
    obtain ⟨i, h1, h5, rfl, hnat⟩ := avviate_at eax l htss hr hs hp hl (by
      intro hk
      rw [Segment.isCode, hk] at hc
      exact absurd hc (by decide))
    subst hl
    interval_cases i
    · exact Or.inl ⟨by decide, heq hnat (by decide)⟩
    · exact absurd hc (by decide)
    · exact Or.inr ⟨by decide, heq hnat (by decide)⟩
    · exact absurd hc (by decide)
  · intro h
    rcases h with ⟨rfl, rfl⟩ | ⟨rfl, rfl⟩
    · exact ⟨by decide, _, hof (i := 1) (by decide) (by decide) (by decide) (by decide), by decide⟩
    · exact ⟨by decide, _, hof (i := 3) (by decide) (by decide) (by decide) (by decide), by decide⟩
  · intro h
    obtain ⟨hr, d, hs, hp, hl, hw⟩ := h
    obtain ⟨i, h1, h5, rfl, hnat⟩ := avviate_at eax l htss hr hs hp hl (by
      intro hk
      rw [Segment.isWritable, hk] at hw
      exact absurd hw (by decide))
    subst hl
    interval_cases i
    · exact absurd hw (by decide)
    · exact Or.inl ⟨by decide, heq hnat (by decide)⟩
    · exact absurd hw (by decide)
    · exact Or.inr ⟨by decide, heq hnat (by decide)⟩
  · intro h
    rcases h with ⟨rfl, rfl⟩ | ⟨rfl, rfl⟩
    · exact ⟨by decide, _, hof (i := 2) (by decide) (by decide) (by decide) (by decide), by decide⟩
    · exact ⟨by decide, _, hof (i := 4) (by decide) (by decide) (by decide) (by decide), by decide⟩
  · intro d hs hp hd
    obtain ⟨h2, ⟨-, -, hk⟩ | ⟨i, hi, h1, h5, rfl⟩⟩ := avviate_segment_cases eax l htss hs hp
    · rw [Segment.isCode, Segment.isWritable, hk] at hd
      exact absurd hd (by decide)
    · interval_cases i <;> decide

/-- The frames of new processes have the selectors of the levels. -/
theorem livelli_corsa : ∃ ind : Indirizzi, ((avviate ind 0 []).registri ind).RunsAt 3 0x1B ∧
    ¬ ((avviate ind 0 []).registri ind).RunsAt 2 0x1A := by
  let ind : Indirizzi :=
    { ignoreInt := 0x30100, syscalle := 0x31000, acdriverT := 0x31200, handlerNoCode := 0x32000
      loggingKbCallback := 0x33000, idtTramps := 0x36000, tss := 0x3A000 }
  refine ⟨ind, (livelli ind (by decide) 0 [] 0x1B 3).1.mpr (by decide), fun h => ?_⟩
  exact absurd ((livelli ind (by decide) 0 [] 0x1A 2).1.mp h) (by decide)

end Pitos
