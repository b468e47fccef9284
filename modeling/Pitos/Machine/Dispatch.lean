import Pitos.Machine.Frames

/-!
# The way to a `ki_` function

What `syscalle` does between the interrupt and the call through the table: it finds the call
number (`controlla_numero`), compares the table word with 0, and `copy_params` puts the words
that `syscall_params` counts below the frame, the last first (`topcopy_eq`). The way in changes
only a piece of one stack (`Zona`); the words of the caller and the tables are taken to be
outside of it (`PilaLibera`).
-/

namespace Pitos

open Lib

namespace Macchina

variable {m : Macchina} {img : Immagine}

/-! ## The call number -/

/-- Where `syscalle` looks for the call number. -/
def numeroIn (m : Macchina) : Word :=
  if m.kernel.mem.read32 (m.reg.esp + 4) &&& 3 = 0 then m.reg.esp + 12
  else m.kernel.mem.read32 (m.reg.esp + 12)

theorem trovaNumero_eq : m.trovaNumero =
    { m with reg := { m.reg with
      edx := m.numeroIn, eax := m.kernel.mem.read32 m.numeroIn } } := by
  have h12 : (3 * 4 : Word) = 12 := by decide
  unfold trovaNumero numeroIn
  simp only [h12]
  by_cases h : m.kernel.mem.read32 (m.reg.esp + 4) &&& 3 = 0
  · rw [if_pos h, if_pos h]
  · rw [if_neg h, if_neg h]

/-- The call of `traceSyscall` leaves the registers alone. -/
theorem traccia_eq (img : Immagine) : ∃ x,
    m.traccia img = { m with kernel := { m.kernel with mem := x } } ∧
    Mem.ChangesAt (Mem.Within (m.reg.esp - 16) 16) m.kernel.mem x := by
  generalize he : m.reg.esp - 16 = e
  have h4 : m.reg.esp - 4 = e + 12 := by bv_omega
  have h8 : e + 12 - 4 = e + 8 := by bv_omega
  have h12 : e + 8 - 4 = e + 4 := by bv_omega
  have h16 : e + 4 - 4 = e := by bv_omega
  have p4 : e + 4 + 4 = e + 8 := by bv_omega
  have p8 : e + 8 + 4 = e + 12 := by bv_omega
  have p12 : e + 12 + 4 = m.reg.esp := by bv_omega
  have a8 : Mem.Apart e (e + 8) := Mem.Apart.base (by decide)
  have a12 : Mem.Apart e (e + 12) := Mem.Apart.base (by decide)
  have b8 : Mem.Apart (e + 4) (e + 8) := Mem.Apart.offset (by decide)
  have b12 : Mem.Apart (e + 4) (e + 12) := Mem.Apart.offset (by decide)
  have c12 : Mem.Apart (e + 8) (e + 12) := Mem.Apart.offset (by decide)
  unfold traccia
  simp only [push, scarta, popEdx, popEax, cima, h4, h8, h12, h16, p4, p8, p12,
    Mem.read32_write32_apart a8, Mem.read32_write32_apart a12, Mem.read32_write32_apart b8,
    Mem.read32_write32_apart b12, Mem.read32_write32_apart c12, Mem.read32_write32]
  refine ⟨_, rfl, ?_⟩
  refine ((((Mem.ChangesAt.refl _).write32 ?_).write32 ?_).write32 ?_).write32 ?_
  · exact fun b hb => hb.of_offset (by decide)
  · exact fun b hb => hb.of_offset (by decide)
  · exact fun b hb => hb.of_offset (by decide)
  · exact fun b hb => hb.mono (by decide)

/-! ## The parameters -/

/-- `copy_params` puts `n` words in their order below the stack pointer. The induction is on
the turns left: the first word pushed is the last parameter and stays where it is. -/
theorem topcopy_eq {n : Nat} (hn : n < 2 ^ 29) (hecx : m.reg.ecx = BitVec.ofNat 32 n)
    (hfar : ∀ b, Mem.Within (m.reg.edx + 8) (4 * n) b →
      ¬ Mem.Within (m.reg.esp - BitVec.ofNat 32 (4 * n)) (4 * n) b) :
    ∃ x, topcopy n m =
        { reg := { m.reg with esp := m.reg.esp - BitVec.ofNat 32 (4 * n), ecx := 0 }
          kernel := { m.kernel with mem := x } } ∧
      Mem.ChangesAt (Mem.Within (m.reg.esp - BitVec.ofNat 32 (4 * n)) (4 * n)) m.kernel.mem x ∧
      ∀ j < n, x.read32 (m.reg.esp - BitVec.ofNat 32 (4 * n) + BitVec.ofNat 32 (4 * j)) =
        m.kernel.mem.read32 (m.reg.edx + 8 + BitVec.ofNat 32 (4 * j)) := by
  induction n generalizing m with
  | zero =>
    refine ⟨m.kernel.mem, ?_, Mem.ChangesAt.refl _, fun j hj => absurd hj (Nat.not_lt_zero j)⟩
    have h0 : m.reg.esp - BitVec.ofNat 32 (4 * 0) = m.reg.esp := by bv_omega
    rw [h0, show (0 : Word) = m.reg.ecx from hecx.symm]
    rfl
  | succ n ih =>
    have hesp : m.reg.esp - 4 - BitVec.ofNat 32 (4 * n) =
        m.reg.esp - BitVec.ofNat 32 (4 * (n + 1)) := by
      bv_omega
    have hsrc : m.reg.edx + m.reg.ecx * 4 + 4 = m.reg.edx + 8 + BitVec.ofNat 32 (4 * n) := by
      rw [hecx]
      bv_omega
    have hdec : m.reg.ecx - 1 = BitVec.ofNat 32 n := by
      rw [hecx]
      bv_omega
    let v := m.kernel.mem.read32 (m.reg.edx + 8 + BitVec.ofNat 32 (4 * n))
    let m₁ : Macchina :=
      { reg := { m.reg with esp := m.reg.esp - 4, ecx := BitVec.ofNat 32 n }
        kernel := { m.kernel with mem := m.kernel.mem.write32 (m.reg.esp - 4) v } }
    have hstep : topcopy (n + 1) m = topcopy n m₁ := by
      simp only [topcopy, push, hsrc, hdec]
      rfl
    have hsub : ∀ b, Mem.Within (m₁.reg.esp - BitVec.ofNat 32 (4 * n)) (4 * n) b →
        Mem.Within (m.reg.esp - BitVec.ofNat 32 (4 * (n + 1))) (4 * (n + 1)) b := fun b hb => by
      rw [← hesp]
      exact hb.mono (by omega)
    have hin : ∀ b, Mem.Within (m.reg.esp - 4) 4 b →
        Mem.Within (m.reg.esp - BitVec.ofNat 32 (4 * (n + 1))) (4 * (n + 1)) b := fun b hb => by
      have h : m.reg.esp - 4 =
          m.reg.esp - BitVec.ofNat 32 (4 * (n + 1)) + BitVec.ofNat 32 (4 * n) := by
        bv_omega
      rw [h] at hb
      apply hb.of_offset
      rw [BitVec.toNat_ofNat]
      omega
    obtain ⟨x, hx, hch, hread⟩ := ih (m := m₁) (by omega) rfl fun b hb hb' =>
      hfar b (hb.mono (by omega)) (hsub b hb')
    rw [hstep]
    have hm₁ : m₁.reg.esp - BitVec.ofNat 32 (4 * n) =
        m.reg.esp - BitVec.ofNat 32 (4 * (n + 1)) := hesp
    rw [hm₁] at hx hch hread
    refine ⟨x, hx, ?_, ?_⟩
    · have h1 : Mem.ChangesAt (Mem.Within (m.reg.esp - BitVec.ofNat 32 (4 * (n + 1))) (4 * (n + 1)))
          m.kernel.mem m₁.kernel.mem := (Mem.ChangesAt.refl _).write32 hin
      exact h1.trans (hch.mono fun b hb => hb.mono (by omega))
    · intro j hj
      rcases Nat.lt_succ_iff_lt_or_eq.mp hj with hlt | rfl
      · rw [hread j hlt]
        have h1 : Mem.ChangesAt (Mem.Within (m.reg.esp - 4) 4) m.kernel.mem m₁.kernel.mem :=
          (Mem.ChangesAt.refl _).write32 fun b hb => hb
        refine h1.read32 fun b hb hb' => hfar b ?_ (hin b hb')
        apply hb.of_offset
        rw [BitVec.toNat_ofNat]
        omega
      · have hlast : m.reg.esp - BitVec.ofNat 32 (4 * (j + 1)) + BitVec.ofNat 32 (4 * j) =
            m.reg.esp - 4 := by
          bv_omega
        rw [hlast, hch.read32 fun b hb hb' => ?_]
        · exact Mem.read32_write32 _ _ _
        · rw [← hlast] at hb
          refine hb'.not_offset ?_ ?_ hb <;> rw [BitVec.toNat_ofNat] <;> omega

/-! ## The stacks on the way in -/

/-- `ESP` at the entry of the kernel. -/
def base (m : Macchina) : Word := if m.cpl = 0 then m.reg.esp - 12 else m.kernel.tssEsp0 - 20

/-- The bytes that the interrupt and `syscalle` write. -/
def Zona (m : Macchina) : Word → Prop :=
  Mem.Within (m.base - 24) (24 + if m.cpl = 0 then 12 else 20)

/-- The tables, and `n` bytes on the stack of the caller from the call number on, are not
written. -/
structure PilaLibera (img : Immagine) (m : Macchina) (n : Nat) : Prop where
  tabelle : ∀ b, Mem.Within img.syscallTable (4 * img.tabelle.length) b → ¬ m.Zona b
  chiamante : ∀ b, Mem.Within m.reg.esp n b → ¬ m.Zona b

theorem interruzione_eq : ∃ ss x, m.interruzione =
    { reg := { m.reg with
        esp := m.base, ss, cs := bassa SYSTEMCODESEL, eflags := spenti m.reg.eflags }
      kernel := { m.kernel with mem := x } } ∧ Telaio m.reg x m.base ∧
    Mem.ChangesAt (Mem.Within m.base (if m.cpl = 0 then 12 else 20)) m.kernel.mem x := by
  unfold base
  by_cases h : m.cpl = 0
  · simp only [if_pos h]
    exact ⟨_, _, interruzione_interna h, telaioInterno_telaio _ _ _ h, telaioInterno_changes _ _ _⟩
  · simp only [if_neg h]
    exact ⟨_, _, interruzione_esterna h, telaio_telaio _ _ _, telaio_changes _ _ _⟩

theorem zona_base {b : Word} (h : Mem.Within m.base (if m.cpl = 0 then 12 else 20) b) :
    m.Zona b := by
  have hb : m.base - 24 + 24 = m.base := by bv_omega
  unfold Zona
  rw [← hb] at h
  exact h.of_offset le_rfl

theorem zona_sotto {b k : Word} {n : Nat} (h : Mem.Within (m.base - k) n b) (hk : k.toNat ≤ 24)
    (hn : n ≤ k.toNat) : m.Zona b := by
  have hb : m.base - 24 + (24 - k) = m.base - k := by bv_omega
  unfold Zona
  rw [← hb] at h
  apply h.of_offset
  have hsub : (24 - k).toNat = 24 - k.toNat := by bv_omega
  omega

/-- The interrupt and `__salva_stato`. -/
structure Entrata (m c : Macchina) : Prop where
  esp : c.reg.esp = m.base
  ds : c.reg.ds = SYSDATASEL
  kernel : ∃ x, c.kernel = { m.kernel.aggiorna m.kernel.esecuzione fun d =>
      { d with context := { m.reg with esp := m.base }.contesto d.context } with mem := x }
  telaio : Telaio m.reg c.kernel.mem m.base
  mem : Mem.ChangesAt m.Zona m.kernel.mem c.kernel.mem

theorem contesto_livello (r : Registri) (cs ss : Selettore) (eflags : Word) :
    ({ r with cs, ss, eflags } : Registri).contesto = r.contesto := by
  funext c i
  fin_cases i <;> rfl

theorem entrata : Entrata m m.interruzione.salvaStato := by
  obtain ⟨ss, x, heq, ht, hx⟩ := interruzione_eq (m := m)
  let y := (x.write32 (m.base - 4) m.reg.eax).write32 (m.base - 8) (estesa m.reg.ds)
  have hpush : Mem.ChangesAt (Mem.Within (m.base - 8) 8) x y := by
    have h4 : m.base - 4 = m.base - 8 + 4 := by bv_omega
    refine ((Mem.ChangesAt.refl x).write32 fun b hb => ?_).write32 fun b hb => hb.mono (by decide)
    rw [h4] at hb
    exact hb.of_offset (by decide)
  have hy : m.interruzione.salvaStato.kernel.mem = y := by
    rw [salvaStato_eq, heq]
  refine ⟨?_, ?_, ⟨y, ?_⟩, ?_, ?_⟩
  · rw [salvaStato_eq, heq]
  · rw [salvaStato_eq]
  · rw [salvaStato_eq, heq, ← contesto_livello { m.reg with esp := m.base } (bassa SYSTEMCODESEL) ss
      (spenti m.reg.eflags)]
    rfl
  · rw [hy]
    exact ht.congr hpush fun b hb => sotto_telaio hb (by decide) (by decide)
  · rw [hy]
    exact (hx.mono fun b => zona_base).trans
      (hpush.mono fun b hb => zona_sotto hb (by decide) (by decide))

theorem and_tre_iff (w : Word) : w &&& 3 = 0 ↔ bassa w &&& 3 = 0 := by
  have h : (w &&& 3).toNat = (bassa w &&& 3).toNat := by
    rw [BitVec.toNat_and, BitVec.toNat_and]
    show w.toNat &&& 3 = (bassa w).toNat &&& 3
    unfold bassa
    rw [BitVec.extractLsb'_toNat, Nat.shiftRight_zero]
    rw [show (3 : Nat) = 2 ^ 2 - 1 from rfl, Nat.and_two_pow_sub_one_eq_mod,
      Nat.and_two_pow_sub_one_eq_mod]
    omega
  rw [← BitVec.toNat_inj, ← BitVec.toNat_inj, h]
  rfl

/-- The state in which the table word is compared with 0. -/
structure AlControllo (m c : Macchina) : Prop where
  entrata : Entrata m c
  eax : c.reg.eax = m.cima
  edx : c.reg.edx = m.reg.esp

/-- Down to the comparison only the words below the frame are written. -/
theorem controlla_eq (img : Immagine) : ∃ y, m.interruzione.controlla img =
    { m.interruzione.salvaStato with
      reg := { m.interruzione.salvaStato.reg with
        edx := m.interruzione.salvaStato.numeroIn
        eax := m.interruzione.salvaStato.kernel.mem.read32 m.interruzione.salvaStato.numeroIn }
      kernel := { m.interruzione.salvaStato.kernel with mem := y } } ∧
    Mem.ChangesAt (Mem.Within (m.base - 16) 16) m.interruzione.salvaStato.kernel.mem y := by
  obtain ⟨y, hy, hch⟩ := traccia_eq (m := m.interruzione.salvaStato.trovaNumero) img
  rw [trovaNumero_eq] at hy hch
  refine ⟨y, ?_, ?_⟩
  · rw [controlla, trovaNumero_eq]
    exact hy
  · rw [← (entrata (m := m)).esp]
    exact hch

theorem controlla_entrata (img : Immagine) : Entrata m (m.interruzione.controlla img) := by
  have he := entrata (m := m)
  obtain ⟨y, hctl, hch⟩ := controlla_eq (m := m) img
  obtain ⟨x, hx⟩ := he.kernel
  rw [hctl]
  refine ⟨he.esp, he.ds, ⟨y, ?_⟩, ?_, he.mem.trans (hch.mono fun b hb => ?_)⟩
  · show ({ m.interruzione.salvaStato.kernel with mem := y } : Kernel) = _
    rw [hx]
  · exact he.telaio.congr hch fun b hb h => sotto_telaio (k := 16) hb le_rfl (by decide) h
  · exact zona_sotto hb (by decide) (by decide)

theorem controlla_numero {n : Nat} (hp : PilaLibera img m n) (hn : 4 ≤ n) :
    AlControllo m (m.interruzione.controlla img) := by
  have he := entrata (m := m)
  have hnum : m.interruzione.salvaStato.numeroIn = m.reg.esp := by
    unfold numeroIn
    rw [he.esp]
    by_cases h : m.cpl = 0
    · rw [if_pos ((and_tre_iff _).mpr (by rw [he.telaio.cs]; exact h))]
      unfold base
      rw [if_pos h]
      bv_omega
    · rw [if_neg (fun h' => h (by rw [and_tre_iff, he.telaio.cs] at h'; exact h'))]
      exact he.telaio.esp h
  refine ⟨controlla_entrata img, ?_, ?_⟩
  · obtain ⟨y, hctl, -⟩ := controlla_eq (m := m) img
    rw [hctl, hnum]
    exact he.mem.read32 fun b hb => hp.chiamante b (hb.mono hn)
  · obtain ⟨y, hctl, -⟩ := controlla_eq (m := m) img
    rw [hctl]
    exact hnum

end Macchina

/-! ## The tables -/

section Tabelle

variable {m c : Macchina} {img : Immagine} {i : Nat} {d : Dichiarazione}

@[simp] theorem syscalls_length : syscalls.length = 17 := rfl

/-- A call stands at its number. -/
theorem syscalls_indice : ∀ d ∈ syscalls, syscalls[d.indice]? = some d := by decide

theorem tabelle_length (img : Immagine) : img.tabelle.length = 234 := by
  simp only [Immagine.tabelle, List.length_append, List.length_map, List.length_replicate,
    syscalls_length]

theorem tabelle_funzione (h : syscalls[i]? = some d) : img.tabelle[i]? = some (img.ki d.nome) := by
  have hi := (List.getElem?_eq_some_iff.mp h).1
  unfold Immagine.tabelle
  rw [List.append_assoc, List.getElem?_append_left (by simpa using hi), List.getElem?_map, h]
  rfl

theorem tabelle_parametri (h : syscalls[i]? = some d) :
    img.tabelle[117 + i]? = some (BitVec.ofNat 32 d.parametri) := by
  have hi : i < 17 := (List.getElem?_eq_some_iff.mp h).1
  unfold Immagine.tabelle
  rw [List.getElem?_append_right (by simp), List.getElem?_append_left (by simpa using hi)]
  simp only [List.length_append, List.length_map, List.length_replicate, syscalls_length,
    Nat.add_sub_cancel_left, List.getElem?_map, h]
  rfl

/-- The 100 words after each table. -/
theorem tabelle_zero (h : 17 ≤ i ∧ i < 117 ∨ 134 ≤ i ∧ i < 234) : img.tabelle[i]? = some 0 := by
  unfold Immagine.tabelle
  rcases h with h | h
  · rw [List.getElem?_append_left (by simp; omega), List.getElem?_append_right (by simp; omega),
      List.getElem?_replicate_of_lt (by simp; omega)]
  · rw [List.getElem?_append_right (by simp; omega), List.getElem?_append_right (by simp; omega),
      List.getElem?_replicate_of_lt (by simp; omega)]

/-- A word of the tables that is outside what has been written. -/
theorem Immagine.Caricata.parola {x y : Mem} {P : Word → Prop} {w : Word} (hT : img.Caricata x)
    (hxy : Mem.ChangesAt P x y)
    (hP : ∀ b, Mem.Within img.syscallTable (4 * img.tabelle.length) b → ¬ P b)
    (h : img.tabelle[i]? = some w) :
    y.read32 (img.syscallTable + BitVec.ofNat 32 (4 * i)) = w := by
  have hi := (List.getElem?_eq_some_iff.mp h).1
  rw [← hT i w h]
  refine hxy.read32 fun b hb => hP b (hb.of_offset ?_)
  rw [tabelle_length] at hi ⊢
  rw [BitVec.toNat_ofNat]
  omega

/-- The words that a call with the number `i` finds in the two tables. -/
theorem Immagine.Caricata.voce {x y : Mem} {P : Word → Prop} (hT : img.Caricata x)
    (hxy : Mem.ChangesAt P x y)
    (hP : ∀ b, Mem.Within img.syscallTable (4 * img.tabelle.length) b → ¬ P b)
    (h : syscalls[i]? = some d) :
    y.read32 (img.syscallTable + BitVec.ofNat 32 i * 4) = img.ki d.nome ∧
      y.read32 (img.syscallParams + BitVec.ofNat 32 i * 4) = BitVec.ofNat 32 d.parametri := by
  have hi : i < 17 := (List.getElem?_eq_some_iff.mp h).1
  constructor
  · have haddr : img.syscallTable + BitVec.ofNat 32 i * 4 =
        img.syscallTable + BitVec.ofNat 32 (4 * i) := by
      bv_omega
    rw [haddr]
    exact hT.parola hxy hP (tabelle_funzione h)
  · have haddr : img.syscallParams + BitVec.ofNat 32 i * 4 =
        img.syscallTable + BitVec.ofNat 32 (4 * (117 + i)) := by
      rw [Immagine.syscallParams, syscalls_length]
      bv_omega
    rw [haddr]
    exact hT.parola hxy hP (tabelle_parametri h)

theorem Immagine.Caricata.congr {x y : Mem} {P : Word → Prop} (hT : img.Caricata x)
    (hxy : Mem.ChangesAt P x y)
    (hP : ∀ b, Mem.Within img.syscallTable (4 * img.tabelle.length) b → ¬ P b) :
    img.Caricata y := fun _ _ h => hT.parola hxy hP h

end Tabelle

/-! ## At the entry of the function -/

/-- What a `ki_` function finds: its arguments are the words above the return address on the
stack of the caller. -/
structure AllaFunzione (img : Immagine) (m : Macchina) (d : Dichiarazione)
    (r : Arrivo × Macchina) : Prop where
  arrivo : r.1 = .funzione (img.ki d.nome)
  esp : r.2.reg.esp + 4 = m.base - BitVec.ofNat 32 (4 * d.parametri)
  kernel : ∃ x, r.2.kernel = { m.kernel.aggiorna m.kernel.esecuzione fun d =>
      { d with context := { m.reg with esp := m.base }.contesto d.context } with mem := x }
  telaio : Telaio m.reg r.2.kernel.mem m.base
  mem : Mem.ChangesAt m.Zona m.kernel.mem r.2.kernel.mem
  argomenti : ∀ j < d.parametri,
    r.2.argomento j = m.kernel.mem.read32 (m.reg.esp + 8 + BitVec.ofNat 32 (4 * j))

theorem syscalls_parametri : ∀ d ∈ syscalls, d.parametri ≤ 5 := by decide

section Chiamata

variable {m c : Macchina} {img : Immagine} {i n : Nat} {d : Dichiarazione}

theorem copyParams_topcopy (hn : n < 2 ^ 32)
    (h : c.kernel.mem.read32 (img.syscallParams + c.reg.eax * 4) = BitVec.ofNat 32 n) :
    c.copyParams img =
      Macchina.topcopy n { c with reg := { c.reg with ecx := BitVec.ofNat 32 n } } := by
  have hnat : (BitVec.ofNat 32 n).toNat = n := by
    rw [BitVec.toNat_ofNat]
    exact Nat.mod_eq_of_lt hn
  unfold Macchina.copyParams
  simp only [h, hnat]
  split
  · rename_i h0
    have hn0 : n = 0 := by
      have := congrArg BitVec.toNat h0
      rwa [hnat] at this
    subst hn0
    rfl
  · rfl

theorem syscalle_funzione (hT : img.Caricata m.kernel.mem) (hp : m.PilaLibera img 28)
    (hd : syscalls[i]? = some d) (hnum : m.cima = BitVec.ofNat 32 i) (hki : img.ki d.nome ≠ 0) :
    AllaFunzione img m d (syscalle img m.interruzione) := by
  have hn := syscalls_parametri d (List.mem_of_getElem? hd)
  have hc := Macchina.controlla_numero hp (by decide)
  obtain ⟨x₀, hx₀⟩ := hc.entrata.kernel
  generalize hcdef : m.interruzione.controlla img = c at hc hx₀
  have heax : c.reg.eax = BitVec.ofNat 32 i := hc.eax.trans hnum
  have hpar : c.kernel.mem.read32 (img.syscallParams + c.reg.eax * 4) =
      BitVec.ofNat 32 d.parametri := by
    rw [heax]
    exact (hT.voce hc.entrata.mem hp.tabelle hd).2
  have hzona : ∀ b, Mem.Within (m.base - BitVec.ofNat 32 (4 * d.parametri)) (4 * d.parametri) b →
      m.Zona b := fun b hb => Macchina.zona_sotto hb
    (by rw [BitVec.toNat_ofNat]; omega) (by rw [BitVec.toNat_ofNat]; omega)
  let c' : Macchina := { c with reg := { c.reg with ecx := BitVec.ofNat 32 d.parametri } }
  have hedx : c'.reg.edx = m.reg.esp := hc.edx
  have hesp : c'.reg.esp = m.base := hc.entrata.esp
  obtain ⟨x, hx, hch, hread⟩ := Macchina.topcopy_eq (n := d.parametri) (m := c') (by omega) rfl
    fun b hb hb' => by
      rw [hedx] at hb
      rw [hesp] at hb'
      refine hp.chiamante b (hb.of_offset ?_) (hzona b hb')
      have h8 : (8 : Word).toNat = 8 := rfl
      omega
  rw [hesp] at hx hch hread
  rw [hedx] at hread
  have hmem : Mem.ChangesAt m.Zona m.kernel.mem x := hc.entrata.mem.trans (hch.mono hzona)
  have hcopy : c.copyParams img = Macchina.topcopy d.parametri c' :=
    copyParams_topcopy (by omega) hpar
  have hzero : c.parolaTabella img ≠ 0 := by
    rw [Macchina.parolaTabella, heax, (hT.voce hc.entrata.mem hp.tabelle hd).1]
    exact hki
  have hret : m.base - BitVec.ofNat 32 (4 * d.parametri) - 4 =
      m.base - BitVec.ofNat 32 (4 * d.parametri + 4) := by bv_omega
  have hpush : Mem.ChangesAt (Mem.Within (m.base - BitVec.ofNat 32 (4 * d.parametri + 4)) 4) x
      (x.write32 (m.base - BitVec.ofNat 32 (4 * d.parametri + 4)) img.dopoKi) :=
    (Mem.ChangesAt.refl x).write32 fun b hb => hb
  have hsys : syscalle img m.interruzione = (.funzione (x.read32 (img.syscallTable + c.reg.eax * 4)),
      { reg := { c.reg with
          ecx := 0, ebx := alta c.reg.ebx ++ c.reg.ds, es := c.reg.ds
          esp := m.base - BitVec.ofNat 32 (4 * d.parametri + 4) }
        kernel := { c.kernel with
          mem := x.write32 (m.base - BitVec.ofNat 32 (4 * d.parametri + 4)) img.dopoKi } }) := by
    unfold syscalle
    simp only [hcdef]
    rw [if_neg hzero, hcopy, hx]
    simp only [Macchina.parolaTabella, Macchina.push, hret]
    rfl
  have hk : ∀ k, k ≤ 24 → (BitVec.ofNat 32 k).toNat = k := fun k hk => by
    rw [BitVec.toNat_ofNat]
    omega
  have hk' := hk (4 * d.parametri + 4) (by omega)
  rw [hsys]
  refine ⟨?_, ?_, ⟨_, by rw [hx₀]⟩, ?_, hmem.trans (hpush.mono fun b hb => ?_), fun j hj => ?_⟩
  · rw [heax]
    exact congrArg Arrivo.funzione (hT.voce hmem hp.tabelle hd).1
  · show m.base - BitVec.ofNat 32 (4 * d.parametri + 4) + 4 = _
    bv_omega
  · refine (hc.entrata.telaio.congr hch fun b hb => ?_).congr hpush fun b hb => ?_
    · exact sotto_telaio hb (hk _ (by omega)).ge (by rw [hk _ (by omega)]; omega)
    · exact sotto_telaio hb (by omega) (by omega)
  · exact Macchina.zona_sotto hb (by omega) (by omega)
  · have haddr : m.base - BitVec.ofNat 32 (4 * d.parametri + 4) + 4 + BitVec.ofNat 32 (4 * j) =
        m.base - BitVec.ofNat 32 (4 * d.parametri + 4) + BitVec.ofNat 32 (4 + 4 * j) := by bv_omega
    have haddr' : m.base - BitVec.ofNat 32 (4 * d.parametri + 4) + BitVec.ofNat 32 (4 + 4 * j) =
        m.base - BitVec.ofNat 32 (4 * d.parametri) + BitVec.ofNat 32 (4 * j) := by bv_omega
    show Mem.read32 _ (m.base - BitVec.ofNat 32 (4 * d.parametri + 4) + 4 +
      BitVec.ofNat 32 (4 * j)) = _
    rw [haddr, hpush.read32 fun b hb hb' => hb'.not_offset (by rw [hk _ (by omega)]; omega)
      (by rw [hk _ (by omega)]; omega) hb, haddr', hread j hj]
    refine hc.entrata.mem.read32 fun b hb => hp.chiamante b ?_
    have h8 : m.reg.esp + 8 + BitVec.ofNat 32 (4 * j) = m.reg.esp + BitVec.ofNat 32 (8 + 4 * j) := by
      bv_omega
    rw [h8] at hb
    apply hb.of_offset
    rw [BitVec.toNat_ofNat]
    omega

end Chiamata

end Pitos
