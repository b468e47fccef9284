import Pitos.Machine.Exceptions
import Pitos.Properties.Syscalls

/-!
# What is printed of an exception

`handlerNoCode` finds `CS` and `EIP` at fixed places of the stack, the places that they have when
the processor has pushed an error code. `eccezione_riportata` says when the report is right.
-/

namespace Pitos

open Lib

/-- The report of an exception that has interrupted the code at `cs` and `eip`. -/
structure Riporta (h : Fin 20) (cs eip : Word) (r : Rapporto) : Prop where
  testo : r.testo = testoEccezione h cs eip
  letto : r.letto = if h = 6 ∨ h = 13 then some eip else none

/-- The code for the vector `idx`. -/
def codiceVettore (fx idx : Word) : List Byte :=
  scriviLong (scriviLong trampoline TRAMPFIX fx) TRAMPFIXPARAM idx

/-- The code up to `cld`: twelve words are pushed. -/
def salvataggio : List Istruzione :=
  [.pushDs, .pushEs, .pushFs, .pushGs, .pusha, .movAx 0x10, .movDsAx, .movEsAx, .movFsAx, .movGsAx,
    .cld]

/-- The words that an instruction pushes. -/
def Istruzione.parole : Istruzione → Nat
  | .pushDs | .pushEs | .pushFs | .pushGs | .pushEsp | .push _ | .callEax => 1
  | .pusha => 8
  | _ => 0

/-- The `i`-th word of the stack. -/
def Macchina.parola (m : Macchina) (i : Nat) : Word :=
  m.kernel.mem.read32 (m.reg.esp + BitVec.ofNat 32 (4 * i))

/-! ## The code -/

theorem long_ricomposto (w : Word) : w.extractLsb' 24 8 ++ w.extractLsb' 16 8 ++
    w.extractLsb' 8 8 ++ w.extractLsb' 0 8 = w := by
  apply BitVec.eq_of_getLsbD_eq
  intro i hi
  simp only [BitVec.getLsbD_append, BitVec.getLsbD_extractLsb']
  grind

theorem decodifica_vettore (fx idx : Word) : decodifica (codiceVettore fx idx) =
    some (salvataggio ++ [.pushEsp, .push idx, .movEax fx, .callEax]) := by
  have hfx := long_ricomposto fx
  have hidx := long_ricomposto idx
  simp [codiceVettore, scriviLong, trampoline, decodifica, salvataggio, hfx, hidx]

theorem idtSetEntry_apply {i : Nat} (hi : i < 256) (fx : Word) (idt : Idt) :
    idtSetEntry i fx idt = Function.update idt i (some (codiceVettore fx (BitVec.ofNat 32 i))) := by
  unfold idtSetEntry
  rw [if_neg (by omega), BitVec.ofInt_natCast, Int.toNat_natCast]
  rfl

/-- The entries that a list of vectors gets. The induction is on the list. -/
theorem installa_apply (fx : Word) (h : Nat) (l : List Nat) (hl : ∀ i ∈ l, i < 256) (idt : Idt) :
    l.foldl (fun (idt : Idt) (i : Nat) => if i ≠ 15 then idtSetEntry i fx idt else idt) idt h =
      if h ∈ l ∧ h ≠ 15 then some (codiceVettore fx (BitVec.ofNat 32 h)) else idt h := by
  induction l generalizing idt with
  | nil => simp
  | cons i l ih =>
    have hi := hl i List.mem_cons_self
    rw [List.foldl_cons, ih fun j hj => hl j (List.mem_cons_of_mem _ hj)]
    by_cases hh : h ∈ l ∧ h ≠ 15
    · rw [if_pos hh, if_pos ⟨List.mem_cons_of_mem _ hh.1, hh.2⟩]
    · rw [if_neg hh]
      by_cases h15 : i = 15
      · rw [if_neg (not_not.mpr h15), if_neg]
        rintro ⟨hmem, hne⟩
        rcases List.mem_cons.mp hmem with heq | hmem
        · exact hne (heq.trans h15)
        · exact hh ⟨hmem, hne⟩
      · rw [if_pos h15, idtSetEntry_apply hi]
        by_cases heq : h = i
        · subst heq
          rw [Function.update_self, if_pos ⟨List.mem_cons_self, h15⟩]
        · rw [Function.update_of_ne heq, if_neg]
          rintro ⟨hmem, hne⟩
          rcases List.mem_cons.mp hmem with heq' | hmem
          · exact heq heq'
          · exact hh ⟨hmem, hne⟩

theorem exceptionsInstall_apply (fx : Word) (idt : Idt) (h : Fin 20) (hh : h ≠ 15) :
    exceptionsInstall fx idt h = some (codiceVettore fx (BitVec.ofNat 32 h)) := by
  unfold exceptionsInstall
  rw [installa_apply fx h _ (fun i hi => by have := List.mem_range.mp hi; omega), if_pos]
  exact ⟨List.mem_range.mpr h.isLt, fun heq => hh (Fin.ext heq)⟩

/-! ## The stack -/

section Pila

variable {m : Macchina} {i : Nat} {v ritorno : Word}

theorem push_parola_zero (m : Macchina) (v : Word) : (m.push v).parola 0 = v := by
  have h0 : m.reg.esp - 4 + BitVec.ofNat 32 (4 * 0) = m.reg.esp - 4 := by bv_omega
  show (m.kernel.mem.write32 (m.reg.esp - 4) v).read32 _ = v
  rw [show (m.push v).reg.esp = m.reg.esp - 4 from rfl, h0, Mem.read32_write32]

/-- A `push` moves the words that are there by one place. -/
theorem push_parola (m : Macchina) (v : Word) (hi : i < 2 ^ 28) :
    (m.push v).parola (i + 1) = m.parola i := by
  have hsucc : m.reg.esp - 4 + BitVec.ofNat 32 (4 * (i + 1)) =
      m.reg.esp + BitVec.ofNat 32 (4 * i) := by bv_omega
  have hap : Mem.Apart (m.reg.esp - 4) (m.reg.esp + BitVec.ofNat 32 (4 * i)) := by
    unfold Mem.Apart
    constructor <;> bv_omega
  show (m.kernel.mem.write32 (m.reg.esp - 4) v).read32 _ = m.kernel.mem.read32 _
  rw [show (m.push v).reg.esp = m.reg.esp - 4 from rfl, hsucc, Mem.read32_write32_apart hap]

theorem pusha_parola (m : Macchina) (hi : i < 2 ^ 27) : m.pusha.parola (i + 8) = m.parola i := by
  unfold Macchina.pusha
  iterate 8 rw [push_parola _ _ (by omega)]

/-- An instruction moves the words by as many places as it pushes. -/
theorem esegue_parola (ritorno : Word) (m : Macchina) (x : Istruzione) (hi : i < 2 ^ 27) :
    (m.esegue ritorno x).parola (i + x.parole) = m.parola i ∧
      (m.esegue ritorno x).reg.esp = m.reg.esp - BitVec.ofNat 32 (4 * x.parole) := by
  cases x with
  | pusha =>
    refine ⟨pusha_parola m hi, ?_⟩
    show m.reg.esp - 4 - 4 - 4 - 4 - 4 - 4 - 4 - 4 = _
    simp only [Istruzione.parole]
    bv_omega
  | callEax => exact ⟨push_parola m ritorno (by omega), rfl⟩
  | pushDs | pushEs | pushFs | pushGs | pushEsp | push =>
    exact ⟨push_parola m _ (by omega), rfl⟩
  | _ => exact ⟨rfl, by simp [Macchina.esegue, Macchina.cld, Istruzione.parole]⟩

/-- A piece of code without calls and jumps. The induction is on its instructions. -/
theorem esegue_corsa (ritorno : Word) (m : Macchina) (is : List Istruzione)
    (hi : i + (is.map Istruzione.parole).sum < 2 ^ 27) :
    (is.foldl (Macchina.esegue ritorno) m).parola (i + (is.map Istruzione.parole).sum) =
        m.parola i ∧
      (is.foldl (Macchina.esegue ritorno) m).reg.esp =
        m.reg.esp - BitVec.ofNat 32 (4 * (is.map Istruzione.parole).sum) := by
  induction is generalizing m i with
  | nil => exact ⟨rfl, by simp⟩
  | cons x is ih =>
    rw [List.map_cons, List.sum_cons] at hi ⊢
    obtain ⟨hparola, hesp⟩ := esegue_parola ritorno m x (i := i) (by omega)
    obtain ⟨hparola', hesp'⟩ := ih (m.esegue ritorno x) (i := i + x.parole) (by omega)
    rw [List.foldl_cons]
    constructor
    · rw [← hparola, ← hparola', Nat.add_assoc]
    · rw [hesp', hesp]
      bv_omega

/-- The frame of an exception without an error code. -/
theorem interruzione_parola (m : Macchina) : m.interruzione.parola 0 = m.reg.eip ∧
    m.interruzione.parola 1 = estesa m.reg.cs ∧ m.interruzione.parola 2 = m.reg.eflags := by
  have hcs : ∀ (c : Macchina) (cs : Selettore) (eflags : Word) (i : Nat),
      ({ c with reg := { c.reg with cs, eflags } } : Macchina).parola i = c.parola i :=
    fun _ _ _ _ => rfl
  unfold Macchina.interruzione
  simp only [hcs]
  refine ⟨push_parola_zero _ _, ?_, ?_⟩
  · rw [push_parola _ _ (by decide), push_parola_zero]
  · rw [push_parola _ _ (by decide), push_parola _ _ (by decide), push_parola_zero]

end Pila

/-! ## The report -/

/-- The text is right only if both numbers are. -/
theorem testoEccezione_iff (h : Fin 20) (a b c d : Word) :
    testoEccezione h a b = testoEccezione h c d ↔ a = c ∧ b = d := by
  have htesto : ∀ x y, testoEccezione h x y = "EXC ".toList ++ dcvt (BitVec.ofNat 32 h) 10 10 0 ++
      ": ".toList ++ (handlerText h).desc.toList ++ ": ".toList ++ ucvt x 16 4 ZERO_PAD ++
        ":".toList ++ ucvt y 16 8 ZERO_PAD := fun x y => by
    simp [testoEccezione, sprintf, vsprintf]
  have hlen : ∀ x : Word, (ucvt x 16 8 ZERO_PAD).length = 8 := fun x => by
    have hx := cifre_le x
    rw [ucvt_zero, List.length_append, List.length_replicate, esadecimale_length]
    omega
  constructor
  · intro heq
    rw [htesto, htesto] at heq
    obtain ⟨hcs, heip⟩ := List.append_inj' heq ((hlen b).trans (hlen d).symm)
    have hcs := (List.append_inj' hcs rfl).1
    exact ⟨ucvt_inj (List.append_cancel_left hcs), ucvt_inj heip⟩
  · rintro ⟨rfl, rfl⟩
    rfl

/-- The report is made of the two words that are 13 and 14 places above the saved registers. -/
theorem riporta_iff (h : Fin 20) (esp cs eip : Word) (x : Mem) :
    Riporta h cs eip (rapporto h esp x) ↔
      x.read32 (esp + BitVec.ofNat 32 (4 * 14)) = cs ∧
        x.read32 (esp + BitVec.ofNat 32 (4 * 13)) = eip := by
  constructor
  · intro hr
    exact (testoEccezione_iff _ _ _ _ _).mp hr.testo
  · rintro ⟨hcs, heip⟩
    refine ⟨(testoEccezione_iff _ _ _ _ _).mpr ⟨hcs, heip⟩, ?_⟩
    simp only [rapporto, heip, decide_eq_true_eq]

theorem argomento_parola (m : Macchina) (i : Nat) : m.argomento i = m.parola (i + 1) := by
  have haddr : m.reg.esp + 4 + BitVec.ofNat 32 (4 * i) =
      m.reg.esp + BitVec.ofNat 32 (4 * (i + 1)) := by bv_omega
  unfold Macchina.argomento Macchina.parola
  rw [haddr]

/-- Through the code of a vector: the function gets the number and the place of the saved
registers, and the words of the frame are above them. -/
theorem trampolino_parola (fx idx ritorno : Word) (m : Macchina) :
    ∃ e, m.trampolino ritorno (codiceVettore fx idx) = some e ∧ e.reg.eip = fx ∧
      e.argomento 0 = idx ∧ ∀ i < 8,
        e.kernel.mem.read32 (e.argomento 1 + BitVec.ofNat 32 (4 * (i + 12))) = m.parola i := by
  have hdec := decodifica_vettore fx idx
  generalize hc : salvataggio.foldl (Macchina.esegue ritorno) m = c
  let e := ((c.push c.reg.esp).push idx).push ritorno
  refine ⟨{ e with reg := { e.reg with eax := fx, eip := fx } }, ?_, rfl, ?_, fun i hi => ?_⟩
  · unfold Macchina.trampolino
    rw [hdec, Option.map_some, List.foldl_append, hc]
    rfl
  · have hidx : e.parola 1 = idx := by
      rw [show e.parola 1 = _ from push_parola _ _ (by decide), push_parola_zero]
    rw [argomento_parola]
    exact hidx
  · have hesp : e.parola 2 = c.reg.esp := by
      rw [show e.parola 2 = _ from push_parola _ _ (by decide), push_parola _ _ (by decide),
        push_parola_zero]
    have hcima : e.parola (i + 15) = c.parola (i + 12) := by
      rw [show e.parola (i + 15) = _ from push_parola _ _ (by omega), push_parola _ _ (by omega),
        push_parola _ _ (by omega)]
    have hsum : (salvataggio.map Istruzione.parole).sum = 12 := by decide
    have hsalva : c.parola (i + 12) = m.parola i := by
      have hcorsa := (esegue_corsa ritorno m salvataggio (i := i) (by omega)).1
      rw [hc, hsum] at hcorsa
      exact hcorsa
    have haddr : c.reg.esp + BitVec.ofNat 32 (4 * (i + 12)) =
        e.reg.esp + BitVec.ofNat 32 (4 * (i + 15)) := by
      rw [show e.reg.esp = c.reg.esp - 4 - 4 - 4 from rfl]
      bv_omega
    rw [argomento_parola]
    show e.kernel.mem.read32 (e.parola 2 + _) = _
    rw [hesp, haddr]
    exact hcima.trans hsalva

/-- The words of the frame in the two shapes that it has. -/
theorem eccezione_parola (m : Macchina) (c : Word) :
    (m.eccezione (some c)).parola 1 = m.reg.eip ∧
      (m.eccezione (some c)).parola 2 = estesa m.reg.cs ∧
      (m.eccezione none).parola 1 = estesa m.reg.cs ∧ (m.eccezione none).parola 2 = m.reg.eflags := by
  obtain ⟨heip, hcs, heflags⟩ := interruzione_parola m
  refine ⟨?_, ?_, hcs, heflags⟩
  · rw [← heip]
    exact push_parola _ _ (by decide)
  · rw [← hcs]
    exact push_parola _ _ (by decide)

/-- **The report of an exception.** It is right exactly for the vectors with an error code, or
when the words that stand in the places of `CS` and `EIP` happen to be equal to them. -/
theorem eccezione_riportata (fx ritorno codice : Word) (idt : Idt) (m : Macchina) (h : Fin 20)
    (hh : h ≠ 15) :
    ∃ buf e, exceptionsInstall fx idt h = some buf ∧
      (m.eccezione (if (handlerText h).errorCode = 1 then some codice else none)).trampolino
        ritorno buf = some e ∧
      e.reg.eip = fx ∧ e.argomento 0 = BitVec.ofNat 32 h ∧
      (Riporta h (estesa m.reg.cs) m.reg.eip (rapporto h (e.argomento 1) e.kernel.mem) ↔
        (handlerText h).errorCode = 1 ∨
          m.reg.eflags = estesa m.reg.cs ∧ estesa m.reg.cs = m.reg.eip) := by
  obtain ⟨heip, hcs, hcs', heflags⟩ := eccezione_parola m codice
  generalize hm : m.eccezione (if (handlerText h).errorCode = 1 then some codice else none) = f
  obtain ⟨e, he, hfx, hidx, hframe⟩ := trampolino_parola fx (BitVec.ofNat 32 h) ritorno f
  refine ⟨_, e, exceptionsInstall_apply fx idt h hh, he, hfx, hidx, ?_⟩
  rw [riporta_iff, hframe 2 (by decide), hframe 1 (by decide), ← hm]
  by_cases hcode : (handlerText h).errorCode = 1
  · rw [if_pos hcode, hcs, heip]
    exact iff_of_true ⟨rfl, rfl⟩ (Or.inl hcode)
  · rw [if_neg hcode, hcs', heflags]
    exact ⟨Or.inr, fun h => h.resolve_left hcode⟩

/-- A general protection fault. -/
theorem eccezione_riportata_corsa : ∃ buf e, exceptionsInstall 0x9000 (fun _ => none) 13 = some buf ∧
    ((utente []).eccezione (some 0)).trampolino 0x8000 buf = some e ∧
    Riporta 13 0x1B 0x50000 (rapporto 13 (e.argomento 1) e.kernel.mem) := by
  obtain ⟨buf, e, hbuf, he, -, -, hiff⟩ := eccezione_riportata 0x9000 0x8000 0 (fun _ => none)
    (utente []) 13 (by decide)
  exact ⟨buf, e, hbuf, he, hiff.mpr (Or.inl rfl)⟩

/-- An invalid opcode at 1B:50000 is reported with `EFLAGS` and `CS`, and it is looked for at the
address 1B. -/
theorem opcode_altrove : ∃ buf e, exceptionsInstall 0x9000 (fun _ => none) 6 = some buf ∧
    ((utente []).eccezione none).trampolino 0x8000 buf = some e ∧
    (handlerText 6).errorCode = 0 ∧ (utente []).reg.cs = 0x1B ∧ (utente []).reg.eip = 0x50000 ∧
    (rapporto 6 (e.argomento 1) e.kernel.mem).testo = testoEccezione 6 0x200 0x1B ∧
    (rapporto 6 (e.argomento 1) e.kernel.mem).letto = some 0x1B ∧
    ¬ Riporta 6 0x1B 0x50000 (rapporto 6 (e.argomento 1) e.kernel.mem) := by
  obtain ⟨-, -, hcs, heflags⟩ := eccezione_parola (utente []) 0
  obtain ⟨e, he, -, -, hframe⟩ := trampolino_parola 0x9000 6 0x8000 ((utente []).eccezione none)
  have hr : Riporta 6 0x200 0x1B (rapporto 6 (e.argomento 1) e.kernel.mem) :=
    (riporta_iff _ _ _ _ _).mpr ⟨(hframe 2 (by decide)).trans heflags,
      (hframe 1 (by decide)).trans hcs⟩
  refine ⟨_, e, exceptionsInstall_apply 0x9000 _ 6 (by decide), he, rfl, rfl, rfl, hr.testo,
    hr.letto, fun hr' => ?_⟩
  have h := hr.letto.symm.trans hr'.letto
  exact absurd h (by decide)

end Pitos
