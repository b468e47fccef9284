import Pitos.Kernel.Processes

/-!
# Signals

`ki_raise`, `ki_signal`, `getlsb`, `handlesignals`, `ki___signalrespin` (`klib/ssignal.cpp`)
and `add_apc` (`klib/sistema.cpp`). The texts that `handlesignals` sends to the log, and what
happens when one does not fit in its buffer, are in `Pitos.Kernel.Messages`.
-/

namespace Pitos

open Lib

abbrev SIGQUIT : Nat := 3
abbrev SIG_DFL : Word := 0
abbrev SIG_ERR : Word := 1
abbrev SIG_IGN : Word := -1

/-- The signal numbers that are accepted. -/
def segnale (sig : Int) : Option (Fin SIGCOUNT) :=
  if h : 0 ≤ sig ∧ sig < SIGCOUNT then some ⟨sig.toNat, by omega⟩ else none

/-- The result and the new state. -/
def kiRaise (sig : Int) (s : Kernel) : Int × Kernel :=
  match segnale sig with
  | none => (-1, s)
  | some i =>
    (0, s.aggiorna s.esecuzione fun d => { d with sigMask := d.sigMask ||| (1 : Word) <<< i.val })

/-- The previous handler and the new state. -/
def kiSignal (sig : Int) (func : Word) (s : Kernel) : Word × Kernel :=
  match segnale sig with
  | none => (0, s)
  | some i =>
    let old := (s.des s.esecuzione).sigHandlers i
    (old, s.aggiorna s.esecuzione fun d =>
      { d with sigHandlers := Function.update d.sigHandlers i func })

/-- The loop of `getlsb`: on a word that is not zero it ends within 32 turns, on zero never. -/
def getlsbLoop : Nat → Word → Nat → Option Nat
  | 0, _, _ => none
  | fuel + 1, k, n => if k &&& 1 = 0 then getlsbLoop fuel (k >>> 1) (n + 1) else some n

def getlsb (k : Word) : Option Nat := getlsbLoop 32 k 0

theorem getlsbLoop_bit {fuel n m : Nat} {k : Word} (h : getlsbLoop fuel k n = some m) :
    n ≤ m ∧ m < n + fuel ∧ k.getLsbD (m - n) = true := by
  induction fuel generalizing k n with
  | zero => cases h
  | succ fuel ih =>
    unfold getlsbLoop at h
    split at h
    · obtain ⟨hle, hlt, hbit⟩ := ih h
      refine ⟨by omega, by omega, ?_⟩
      rw [BitVec.getLsbD_ushiftRight] at hbit
      have hsum : 1 + (m - (n + 1)) = m - n := by omega
      rwa [hsum] at hbit
    · rename_i hk
      obtain rfl := Option.some.inj h
      refine ⟨le_rfl, by omega, ?_⟩
      rw [Nat.sub_self]
      by_contra hbit
      refine hk (BitVec.eq_of_getLsbD_eq fun j hj => ?_)
      by_cases h0 : j = 0
      · subst h0
        simpa using hbit
      · simp [h0]

/-- The signal that is found is pending. -/
theorem getlsb_bit {k : Word} {n : Nat} (h : getlsb k = some n) :
    n < SIGCOUNT ∧ k.getLsbD n = true := by
  obtain ⟨-, hlt, hbit⟩ := getlsbLoop_bit h
  exact ⟨by omega, by rwa [Nat.sub_zero] at hbit⟩

/-- The user stack gets the address of `__signalrespin`, the parameter and the interrupted
`EIP`; the system frame then leads to `fx` with the new user `ESP`. -/
def addApc (p : DesPtr) (fx param : Word) (s : Kernel) : Kernel :=
  let sysesp := (s.des p).context iESP
  let useresp := s.mem.read32 (sysesp + 12)
  let useresp := useresp - 12
  let m := s.mem.write32 useresp s.link.signalrespin
  let m := m.write32 (useresp + 4) param
  let m := m.write32 (useresp + 8) (m.read32 sysesp)
  let m := m.write32 sysesp fx
  { s with mem := m.write32 (sysesp + 12) useresp }

/-- The routine apart from its texts, that is where they all fit in `buf`; `handlesignalsBuf`
has them. -/
def handlesignals (s : Kernel) : Esito Kernel :=
  match getlsb (s.des s.esecuzione).sigMask with
  | none => .error .diverge
  | some sig =>
    if h : sig < SIGCOUNT then
      let i : Fin SIGCOUNT := ⟨sig, h⟩
      let fx := (s.des s.esecuzione).sigHandlers i
      let s := s.aggiorna s.esecuzione fun d =>
        { d with
          sigHandlers := Function.update d.sigHandlers i SIG_DFL
          sigMask := d.sigMask &&& ~~~((1 : Word) <<< sig) }
      if fx = SIG_IGN then .ok s
      else if fx = SIG_DFL then
        if sig = SIGQUIT then kiTerminateP s else .ok s
      else if fx = SIG_ERR then .ok s
      else .ok (addApc s.esecuzione fx (BitVec.ofNat 32 sig) s)
    else .ok s

/-- The call number that the stub pushed takes the place of the signal number above it. -/
def kiSignalrespin (s : Kernel) : Kernel :=
  let sysesp := (s.des s.esecuzione).context iESP
  let useresp := s.mem.read32 (sysesp + 12)
  let m := s.mem.write32 (useresp + 4) (s.mem.read32 useresp)
  let useresp := useresp + 4
  { s with mem := m.write32 (sysesp + 12) useresp }

/-- `loggingKbCallback`: key ESC (scan code 1) switches the page, the release of key 5 (0x86)
raises `SIGQUIT` on the current process. -/
def loggingKbCallback (code : BitVec 8) (s : Kernel) : Kernel :=
  let s := { s with kbChanged := 1, kbLast := code.toNat }
  if code = 0x1 then
    { s with currentPage := if s.currentPage ≠ 2 then 2 else 0 }
  else if code = 0x86 then (kiRaise SIGQUIT s).2
  else s

end Pitos
