import Pitos.Kernel.Places
import Pitos.Machine.Dispatch

/-!
# The number and the parameters of a system call

`syscalle` compares the table word for the number with 0 and makes no other check.
`numero_convalidato` says for which of the `2^32` numbers this is enough. The index is scaled
by 4 modulo `2^32`, so it reaches every word of the memory, four times over; the words that are
not 0 are the functions, most of the parameter counts that follow the table, and whatever else
is in memory.

`parametri_trasmessi`: the arguments a `ki_` function finds are the words its caller pushed,
for all calls but one, for a caller of level 3 and of level 0 alike. `ki__malloc` has two
parameters and `syscalls.h` says one, so it takes its second from the frame of the interrupt.
-/

namespace Pitos

open Lib Macchina

variable {img : Immagine} {m : Macchina} {d : Dichiarazione}

theorem indice_syscalls : ∀ i : Fin 17, (syscalls[i]).indice = i.val := by decide

/-! ## A linked image -/

/-- Addresses the linker may give. -/
def immagine : Immagine where
  ki f := 0x30100 + BitVec.ofNat 32 (16 * syscalls.findIdx fun d => d.nome = f)
  syscallTable := 0x32000
  dopoTrace := 0x30010
  dopoKi := 0x30020
  dopoBad := 0x30030

/-- The memory `x` with the tables loaded. -/
def Immagine.sopra (img : Immagine) (x : Mem) : Mem := fun a =>
  let i := (a - img.syscallTable).toNat
  if i < 936 then (img.tabelle.getD (i / 4) 0).extractLsb' (8 * (i % 4)) 8 else x a

theorem sopra_caricata (img : Immagine) (x : Mem) : img.Caricata (img.sopra x) := by
  intro i w hw
  have hi : i < 234 := tabelle_length img ▸ (List.getElem?_eq_some_iff.mp hw).1
  apply Mem.read32_eq
  intro k hk
  have hsub : (img.syscallTable + BitVec.ofNat 32 (4 * i) + BitVec.ofNat 32 k -
      img.syscallTable).toNat = 4 * i + k := by bv_omega
  have hdiv : (4 * i + k) / 4 = i := by omega
  have hmod : (4 * i + k) % 4 = k := by omega
  simp only [Immagine.sopra, hsub, hdiv, hmod, List.getD, hw]
  rw [if_pos (by omega)]
  rfl

theorem sopra_fuori {img : Immagine} {x : Mem} {b : Word}
    (h : ¬ Mem.Within img.syscallTable (4 * img.tabelle.length) b) : img.sopra x b = x b := by
  rw [tabelle_length] at h
  exact if_neg h

theorem immagine_ki : ∀ d ∈ syscalls, immagine.ki d.nome ≠ 0 := by decide

/-- A process of level 3 with some words on its stack, which starts at `0x40000`. -/
def utente (pila : List (Word × Word)) : Macchina where
  reg := ⟨0, 0, 0, 0, 0, 0, 0, 0x40000, 0x50000, 0x200, 0x1B, 0x23, 0x23, 0x23, 0x23, 0x23⟩
  kernel := { caricato with
    esecuzione := some 1
    tssEsp0 := 0x21000
    mem := immagine.sopra (pila.foldl (fun x w => x.write32 w.1 w.2) fun _ => 0) }

/-- The pieces of memory of `utente` that are in play do not meet. -/
theorem utente_libera {m : Macchina} (hbase : m.base = 0x20FEC) (hcpl : m.cpl = 3)
    (hesp : m.reg.esp = 0x40000 ∨ m.reg.esp = 0x3FFFC) : m.PilaLibera immagine 28 := by
  have hzona : ∀ b, m.Zona b → Mem.Within 0x20FD4 44 b := fun b hb => by
    unfold Zona at hb
    rw [hbase, hcpl] at hb
    exact hb
  refine ⟨fun b hb hz => ?_, fun b hb hz => ?_⟩
  · have hz := hzona b hz
    rw [tabelle_length] at hb
    have hb : Mem.Within 0x32000 936 b := hb
    unfold Mem.Within at *
    bv_omega
  · have hz := hzona b hz
    rcases hesp with h | h <;> rw [h] at hb <;> unfold Mem.Within at * <;> bv_omega

/-! ## The number -/

/-- Where a number should lead. -/
structure Convalida (img : Immagine) (c : Word) (a : Arrivo) : Prop where
  valida : ∀ d ∈ syscalls, d.indice = c.toNat → a = .funzione (img.ki d.nome)
  altra : (∀ d ∈ syscalls, d.indice ≠ c.toNat) → a = .badSysCall
  dichiarata : ∀ w, a = .funzione w → ∃ d ∈ syscalls, w = img.ki d.nome

/-- The word of memory, counted from `syscall_table`, that a number reaches. -/
def indice (c : Word) : Nat := c.toNat % 2 ^ 30

/-- The numbers of the calls, and those that reach a word that is 0: between the tables, the
count of a call without parameters, behind the tables, or elsewhere in memory. -/
def Innocuo (img : Immagine) (m : Macchina) : Prop :=
  m.cima.toNat < 17 ∨ (17 ≤ indice m.cima ∧ indice m.cima < 117) ∨ indice m.cima = 118 ∨
    indice m.cima = 130 ∨ (134 ≤ indice m.cima ∧ indice m.cima < 234) ∨
    (234 ≤ indice m.cima ∧ (m.interruzione.controlla img).kernel.mem.read32
      (img.syscallTable + BitVec.ofNat 32 (4 * indice m.cima)) = 0)

theorem parametri_zero : ∀ i : Fin 17,
    BitVec.ofNat 32 (syscalls[i]).parametri = 0 ↔ i.val = 1 ∨ i.val = 13 := by decide

/-- The words of the two tables that are 0. -/
theorem tabelle_zero_iff (hki : ∀ d ∈ syscalls, img.ki d.nome ≠ 0) {j : Nat} (hj : j < 234) :
    ∃ w, img.tabelle[j]? = some w ∧
      (w = 0 ↔ (17 ≤ j ∧ j < 117) ∨ j = 118 ∨ j = 130 ∨ (134 ≤ j ∧ j < 234)) := by
  rcases Nat.lt_or_ge j 17 with h17 | h17
  · have hd : syscalls[j]? = some syscalls[j] := List.getElem?_eq_getElem h17
    refine ⟨_, tabelle_funzione hd, fun h => absurd h (hki _ (List.getElem_mem h17)), fun h => ?_⟩
    omega
  rcases Nat.lt_or_ge j 117 with h117 | h117
  · exact ⟨0, tabelle_zero (Or.inl ⟨h17, h117⟩), fun _ => Or.inl ⟨h17, h117⟩, fun _ => rfl⟩
  rcases Nat.lt_or_ge j 134 with h134 | h134
  · obtain ⟨i, rfl⟩ := Nat.exists_eq_add_of_le h117
    have hi : i < 17 := by omega
    have hd : syscalls[i]? = some syscalls[i] := List.getElem?_eq_getElem hi
    refine ⟨_, tabelle_parametri hd, (parametri_zero ⟨i, hi⟩).trans ?_⟩
    show i = 1 ∨ i = 13 ↔ _
    omega
  · exact ⟨0, tabelle_zero (Or.inr ⟨h134, hj⟩), fun _ => by omega, fun _ => rfl⟩

/-- The comparison is with the word at `indice`. -/
theorem controlla_parola (hp : m.PilaLibera img 28) :
    (m.interruzione.controlla img).parolaTabella img =
      (m.interruzione.controlla img).kernel.mem.read32
        (img.syscallTable + BitVec.ofNat 32 (4 * indice m.cima)) := by
  have haddr : img.syscallTable + m.cima * 4 =
      img.syscallTable + BitVec.ofNat 32 (4 * indice m.cima) := by
    unfold indice
    bv_omega
  rw [parolaTabella, (controlla_numero hp (by decide)).eax, haddr]

/-- Outside the declared numbers the check decides what `Innocuo` says. -/
theorem controlla_zero_iff (hT : img.Caricata m.kernel.mem)
    (hki : ∀ d ∈ syscalls, img.ki d.nome ≠ 0) (hp : m.PilaLibera img 28)
    (hc : 17 ≤ m.cima.toNat) :
    (m.interruzione.controlla img).parolaTabella img = 0 ↔ Innocuo img m := by
  rw [controlla_parola hp]
  unfold Innocuo
  rcases Nat.lt_or_ge (indice m.cima) 234 with hj | hj
  · obtain ⟨w, hw, hzero⟩ := tabelle_zero_iff hki hj
    rw [hT.parola (controlla_numero hp (by decide)).entrata.mem hp.tabelle hw, hzero]
    omega
  · constructor
    · exact fun h => Or.inr (Or.inr (Or.inr (Or.inr (Or.inr ⟨hj, h⟩))))
    · intro h
      rcases h with h | h | h | h | h | ⟨-, h⟩
      · omega
      · omega
      · omega
      · omega
      · omega
      · exact h

theorem numero_convalidato (img : Immagine) (m : Macchina) (hT : img.Caricata m.kernel.mem)
    (hki : ∀ d ∈ syscalls, img.ki d.nome ≠ 0) (hp : m.PilaLibera img 28) :
    Convalida img m.cima (syscalle img m.interruzione).1 ↔ Innocuo img m := by
  have hdich : ∀ d ∈ syscalls, d.indice < 17 := by decide
  have hbad : (m.interruzione.controlla img).parolaTabella img = 0 ↔
      (syscalle img m.interruzione).1 = .badSysCall := by
    unfold syscalle
    simp only
    split
    · rename_i h
      exact ⟨fun _ => rfl, fun _ => h⟩
    · rename_i h
      exact ⟨fun h' => absurd h' h, fun h' => by cases h'⟩
  rcases Nat.lt_or_ge m.cima.toNat 17 with hc | hc
  · have hc' : m.cima.toNat < syscalls.length := hc
    have hd : syscalls[m.cima.toNat]? = some syscalls[m.cima.toNat] := List.getElem?_eq_getElem hc'
    have hmem := List.getElem_mem hc'
    have harr := (syscalle_funzione hT hp hd (by simp) (hki _ hmem)).arrivo
    refine ⟨fun _ => Or.inl hc, fun _ => ⟨fun d hd' he => ?_, fun h => ?_, fun w hw => ?_⟩⟩
    · have hidx := syscalls_indice d hd'
      rw [he] at hidx
      rw [harr, Option.some.inj (hd.symm.trans hidx)]
    · exact absurd (indice_syscalls ⟨_, hc⟩) (h _ hmem)
    · rw [harr] at hw
      exact ⟨_, hmem, (Arrivo.funzione.inj hw).symm⟩
  · have hno : ∀ d ∈ syscalls, d.indice ≠ m.cima.toNat := fun d hd he => by
      have := hdich d hd
      omega
    rw [← controlla_zero_iff hT hki hp hc, hbad]
    refine ⟨fun h => h.altra hno, fun h => ⟨fun d hd he => absurd he (hno d hd), fun _ => h,
      fun w hw => ?_⟩⟩
    rw [h] at hw
    cases hw

/-- A process calls number 0. -/
theorem numero_convalidato_corsa :
    Convalida immagine 0 (syscalle immagine (utente [(0x40000, 0)]).interruzione).1 :=
  (numero_convalidato immagine (utente [(0x40000, 0)])
    (sopra_caricata _ _) immagine_ki (utente_libera (by decide) (by decide) (Or.inl rfl))).mpr
    (Or.inl (by decide +kernel))

/-- Number 117 reaches the first parameter count, and `syscalle` calls the address 5. -/
theorem numero_fuori_tabella :
    ∃ (img : Immagine) (m : Macchina), img.Caricata m.kernel.mem ∧
      (∀ d ∈ syscalls, img.ki d.nome ≠ 0) ∧ m.PilaLibera img 28 ∧ m.cima = 117 ∧
      ¬ Convalida img m.cima (syscalle img m.interruzione).1 := by
  refine ⟨immagine, utente [(0x40000, 117)], sopra_caricata _ _, immagine_ki,
    utente_libera (by decide) (by decide) (Or.inl rfl), by decide +kernel, fun h => ?_⟩
  have hcima : (utente [(0x40000, 117)]).cima = 117 := by decide +kernel
  have hbad := h.altra fun d hd he => by
    rw [hcima] at he
    exact absurd he ((by decide : ∀ d ∈ syscalls, d.indice ≠ (117 : Word).toNat) d hd)
  have hfive : (syscalle immagine (utente [(0x40000, 117)]).interruzione).1 = .funzione 5 := by
    decide +kernel
  rw [hfive] at hbad
  cases hbad

/-! ## The parameters -/

/-- The number of parameters of the C function `ki_*`. -/
def Primitiva.arita : Primitiva → Nat
  | .activateP => 5
  | .terminateP => 0
  | .semIni => 3
  | .semWait => 1
  | .semSignal => 1
  | .sysGetOsName => 2
  | .getTick => 2
  | .delay => 1
  | .getPri => 1
  | .getBasepri => 1
  | .getPid => 1
  | .signal => 2
  | .raise => 1
  | .signalrespin => 0
  | .print => 2
  | .free => 1
  | .malloc => 2

/-- The call by the stub of `d` in `m`, where the return address is on top of the stack and
the parameters are above it. -/
structure Trasmette (img : Immagine) (m : Macchina) (d : Dichiarazione) (eip : Word) : Prop where
  arrivo : (syscalle img (m.stub d.indice eip).interruzione).1 = .funzione (img.ki d.nome)
  parametri : ∀ j < d.nome.arita,
    (syscalle img (m.stub d.indice eip).interruzione).2.argomento j =
      m.kernel.mem.read32 (m.reg.esp + 4 + BitVec.ofNat 32 (4 * j))
  /-- The argument is one of the words copied, below the frame of the interrupt. -/
  origine : ∀ j < d.nome.arita,
    4 * j + 4 ≤ ((m.stub d.indice eip).interruzione.reg.esp -
      ((syscalle img (m.stub d.indice eip).interruzione).2.reg.esp + 4)).toNat

theorem arita_parametri : ∀ d ∈ syscalls, d.nome ≠ .malloc → d.nome.arita = d.parametri := by
  decide

theorem malloc_parametri : ∀ d ∈ syscalls, d.nome = .malloc → d.nome.arita = d.parametri + 1 := by
  decide

theorem parametri_trasmessi (img : Immagine) (m : Macchina) (d : Dichiarazione) (eip : Word)
    (hd : d ∈ syscalls) (hki : img.ki d.nome ≠ 0)
    (hT : img.Caricata (m.stub d.indice eip).kernel.mem)
    (hp : (m.stub d.indice eip).PilaLibera img 28) :
    Trasmette img m d eip ↔ d.nome ≠ .malloc := by
  have hn := syscalls_parametri d hd
  have hbase : (m.stub d.indice eip).interruzione.reg.esp = (m.stub d.indice eip).base := by
    obtain ⟨ss, x, heq, -⟩ := interruzione_eq (m := m.stub d.indice eip)
    rw [heq]
  have hf := syscalle_funzione hT hp (syscalls_indice d hd) (Mem.read32_write32 _ _ _) hki
  have hdist : ((m.stub d.indice eip).interruzione.reg.esp -
      ((syscalle img (m.stub d.indice eip).interruzione).2.reg.esp + 4)).toNat =
        4 * d.parametri := by
    rw [hbase, hf.esp]
    bv_omega
  constructor
  · intro h hmalloc
    have har := malloc_parametri d hd hmalloc
    have := h.origine d.parametri (by omega)
    omega
  · intro hne
    have har := arita_parametri d hd hne
    refine ⟨hf.arrivo, fun j hj => ?_, fun j hj => by omega⟩
    have h8 : (m.stub d.indice eip).reg.esp + 8 + BitVec.ofNat 32 (4 * j) =
        m.reg.esp + 4 + BitVec.ofNat 32 (4 * j) := by
      show m.reg.esp - 4 + 8 + _ = _
      bv_omega
    rw [hf.argomenti j (by omega), h8]
    -- the stub has pushed the number below the parameters
    apply Mem.read32_write32_apart
    unfold Mem.Apart
    constructor <;> bv_omega

/-- The stub of a process with the stack `pila` leaves the tables alone. -/
theorem stub_caricata (pila : List (Word × Word)) (n : Nat) (eip : Word) :
    immagine.Caricata ((utente pila).stub n eip).kernel.mem := by
  refine (sopra_caricata immagine _).congr ((Mem.ChangesAt.refl _).write32 fun b hb => hb)
    fun b hb hb' => ?_
  rw [tabelle_length] at hb
  have hb : Mem.Within 0x32000 936 b := hb
  have hb' : Mem.Within (0x40000 - 4) 4 b := hb'
  unfold Mem.Within at *
  bv_omega

/-- A process calls `get_pid` through its stub. -/
theorem parametri_trasmessi_corsa :
    Trasmette immagine (utente [(0x40004, 0x5000)]) ⟨.getPid, 1, 10⟩ 0x50002 :=
  (parametri_trasmessi immagine (utente [(0x40004, 0x5000)]) ⟨.getPid, 1, 10⟩ 0x50002 (by decide)
    (by decide) (stub_caricata _ _ _) (utente_libera (by decide) (by decide) (Or.inr rfl))).mpr
    (by decide)

/-- A process calls `_malloc(16, 0x5000)`; the function gets the address after `int 0x30` in
the place of the second parameter. -/
theorem malloc_parametro :
    ∃ (img : Immagine) (m : Macchina) (d : Dichiarazione) (eip : Word), d ∈ syscalls ∧
      img.ki d.nome ≠ 0 ∧ img.Caricata (m.stub d.indice eip).kernel.mem ∧
      (m.stub d.indice eip).PilaLibera img 28 ∧ d.nome = .malloc ∧
      (syscalle img (m.stub d.indice eip).interruzione).2.argomento 1 = eip ∧
      ¬ Trasmette img m d eip := by
  have harg : (syscalle immagine ((utente [(0x40004, 16), (0x40008, 0x5000)]).stub 16
      0x50002).interruzione).2.argomento 1 = 0x50002 := by decide +kernel
  have hpar : (utente [(0x40004, 16), (0x40008, 0x5000)]).kernel.mem.read32
      (0x40004 + BitVec.ofNat 32 (4 * 1)) = 0x5000 := by decide +kernel
  refine ⟨immagine, utente [(0x40004, 16), (0x40008, 0x5000)], ⟨.malloc, 1, 16⟩, 0x50002,
    by decide, by decide, stub_caricata _ _ _, utente_libera (by decide) (by decide) (Or.inr rfl),
    rfl, harg, fun h => ?_⟩
  have h1 := (harg.symm.trans (h.parametri 1 (by decide))).trans hpar
  exact absurd h1 (by decide)

end Pitos
