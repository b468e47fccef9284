import Mathlib.Algebra.BigOperators.Fin
import Pitos.Kernel.Messages
import Pitos.Refinement.Execution

/-!
# The texts of the signals and their buffer

`testi_brevi` says when every text that `handlesignals` formats fits in `buf` with its `NUL`.
The first and the last always do; the dump of the handlers does when their digits are few.
-/

namespace Pitos

open Lib

section

variable {sig : Fin SIGCOUNT} {d : DesProc}

/-- `%x` prints no more digits than it must. -/
theorem ucvt_length (w : Word) : (ucvt w 16 10 0).length = cifre w := by
  rw [ucvt_esa, esadecimale_length]

theorem dcvt_length (sig : Fin SIGCOUNT) :
    (dcvt (BitVec.ofNat 32 sig) 10 10 0).length ≤ 2 := by
  revert sig
  decide

theorem nome_length (sig : Fin SIGCOUNT) : (signaltable sig).toList.length ≤ 10 := by
  revert sig
  decide

/-- The text that names the signal: 36 characters of its own. -/
theorem scelta_length (p m fx : Word) (sig : Fin SIGCOUNT) :
    (sprintf "Process %x Signal Mask %x, Selected %d %s = %x"
      [.intero p, .intero m, .intero (BitVec.ofNat 32 sig), .stringa (signaltable sig).toList,
        .intero fx]).length =
      36 + cifre p + cifre m + (dcvt (BitVec.ofNat 32 sig) 10 10 0).length +
        (signaltable sig).toList.length + cifre fx := by
  simp [sprintf, vsprintf, ucvt_length]
  omega

/-- The dump of the table: a blank and the digits of each of its entries. -/
theorem tabella_length (f : Fin SIGCOUNT → Word) :
    (testoTabella f).length = 16 + ∑ i : Fin 16, cifre (f (i.castLE (by decide))) := by
  have hvoce : ∀ w, (sprintf " %x" [.intero w]).length = 1 + cifre w := fun w => by
    simp [sprintf, vsprintf, ucvt_length, Nat.add_comm]
  rw [testoTabella, ← List.flatMap_eq_foldl, List.length_flatMap]
  simp only [hvoce]
  rw [← Fin.sum_univ_def, Finset.sum_add_distrib]
  simp

/-- The text that names the action, in all its forms. -/
theorem azione_length {t : List Char} {fx : Word}
    (h : t ∈ (if fx = SIG_IGN then
        [sprintf "Signal - %d - Ignored" [.intero (BitVec.ofNat 32 sig)]]
      else if fx = SIG_DFL then
        [sprintf "Signal - %d - Default" [.intero (BitVec.ofNat 32 sig)]]
      else if fx = SIG_ERR then
        [sprintf "Signal - %d - Error" [.intero (BitVec.ofNat 32 sig)]]
      else [])) : t.length < BUF := by
  have hsig := dcvt_length sig
  have hbuf : BUF = 100 := rfl
  split_ifs at h
  · obtain rfl := List.mem_singleton.mp h
    simp [sprintf, vsprintf]
    omega
  · obtain rfl := List.mem_singleton.mp h
    simp [sprintf, vsprintf]
    omega
  · obtain rfl := List.mem_singleton.mp h
    simp [sprintf, vsprintf]
    omega
  · cases h

/-- The dump of the table is the only text that may be too long. -/
theorem testi_tabella (p : Word) (d : DesProc) (sig : Fin SIGCOUNT) :
    (∀ t ∈ testiSegnale p d sig, t.length < BUF) ↔
      (testoTabella (Function.update d.sigHandlers sig SIG_DFL)).length < BUF := by
  have hbuf : BUF = 100 := rfl
  constructor
  · intro h
    exact h _ (List.mem_cons_of_mem _ List.mem_cons_self)
  · intro h t ht
    rcases List.mem_cons.mp ht with rfl | ht
    · have hp := cifre_le p
      have hm := cifre_le d.sigMask
      have hfx := cifre_le (d.sigHandlers sig)
      have hsig := dcvt_length sig
      have hnome := nome_length sig
      rw [scelta_length]
      omega
    · rcases List.mem_cons.mp ht with rfl | ht
      · exact h
      · exact azione_length ht

end

/-- **The texts fit in the buffer.** They do exactly when the 16 entries that are printed, with
that of the delivered signal already set back, have at most 83 hexadecimal digits in all. -/
theorem testi_brevi (p : Word) (d : DesProc) (sig : Fin SIGCOUNT) :
    (∀ t ∈ testiSegnale p d sig, t.length < BUF) ↔
      ∑ i : Fin 16, cifre (Function.update d.sigHandlers sig SIG_DFL (i.castLE (by decide))) ≤
        83 := by
  have hbuf : BUF = 100 := rfl
  rw [testi_tabella, tabella_length]
  omega

/-- A process ignores ten signals and raises another one: the dump has 102 characters. -/
theorem tabella_lunga : ∃ s sig,
    Raggiunge IdleVivo ((List.range 10).map fun i => .chiamata (.signal i SIG_IGN)) s ∧
      getlsb ((kiRaise 20 s).2.des s.esecuzione).sigMask = some sig.val ∧
      ∀ p, ∃ t ∈ testiSegnale p ((kiRaise 20 s).2.des s.esecuzione) sig, t.length = 102 := by
  obtain ⟨x, hx, hP⟩ := Sistema.prova_raggiunge (B := fun _ => True)
    (G := fun x e => IdleVivo x.kernel e)
    [.attiva 0x7000 0 10 3 0x5010 0x5014 (pila 0x20000)]
    ((List.range 10).map fun i => .chiamata (.signal i SIG_IGN))
    (fun x => getlsb ((kiRaise 20 x.kernel).2.des x.kernel.esecuzione).sigMask = some 20 ∧
      (testoTabella (Function.update
        ((kiRaise 20 x.kernel).2.des x.kernel.esecuzione).sigHandlers 20 SIG_DFL)).length = 102)
    (by decide +kernel)
  obtain ⟨hbit, hlen⟩ := of_decide_eq_true hP
  exact ⟨x.kernel, 20, hx.kernel fun _ _ h => h, hbit, fun p =>
    ⟨_, List.mem_cons_of_mem _ List.mem_cons_self, hlen⟩⟩

end Pitos
