import Mathlib.Data.Fintype.Basic
import Mathlib.Tactic.FinCases
import Pitos.Machine.Entry

/-!
# What the way into the kernel leaves on the stack

The interrupt leaves a frame (`Telaio`), `__salva_stato` fills the context of the current
process (`contesto`), and down to the call of a `ki_` function `syscalle` changes only a small
piece of the system stack, in which `copy_params` puts the arguments.
-/

namespace Pitos

open Lib

/-! ## The frame of an interrupt -/

/-- The words at `e` are those from which `iret` loads `EIP`, `CS`, `EFLAGS` and, on the way
to another level, `ESP` and `SS`. -/
structure Telaio (r : Registri) (x : Mem) (e : Word) : Prop where
  eip : x.read32 e = r.eip
  cs : bassa (x.read32 (e + 4)) = r.cs
  eflags : x.read32 (e + 8) = r.eflags
  esp : r.cs &&& 3 ≠ 0 → x.read32 (e + 12) = r.esp
  ss : r.cs &&& 3 ≠ 0 → bassa (x.read32 (e + 16)) = r.ss

/-- The bytes of the frame of a process of level 3. -/
abbrev SuTelaio (e : Word) : Word → Prop := Mem.Within e 20

theorem Telaio.congr {r : Registri} {x y : Mem} {e : Word} {P : Word → Prop} (h : Telaio r x e)
    (hxy : Mem.ChangesAt P x y) (hP : ∀ b, SuTelaio e b → ¬ P b) : Telaio r y e := by
  have hread : ∀ k : Word, k.toNat ≤ 16 → y.read32 (e + k) = x.read32 (e + k) := fun k hk =>
    hxy.read32 fun b hb => hP b (hb.of_offset (by omega))
  have h0 : y.read32 e = x.read32 e := by simpa using hread 0 (by decide)
  refine ⟨h0.trans h.eip, ?_, ?_, ?_, ?_⟩
  · rw [hread 4 (by decide)]
    exact h.cs
  · rw [hread 8 (by decide)]
    exact h.eflags
  · intro hc
    rw [hread 12 (by decide)]
    exact h.esp hc
  · intro hc
    rw [hread 16 (by decide)]
    exact h.ss hc

/-- What lies below a frame has no byte in common with it. -/
theorem sotto_telaio {e k b : Word} {n : Nat} (hb : SuTelaio e b) (hn : n ≤ k.toNat)
    (hk : k.toNat + 20 ≤ 2 ^ 32) : ¬ Mem.Within (e - k) n b := fun h => by
  have he : e - k + k = e := by bv_omega
  rw [← he] at hb
  exact h.not_offset hn hk hb

/-- The memory with a frame for the same level at `e`. -/
def Registri.telaioInterno (r : Registri) (x : Mem) (e : Word) : Mem :=
  ((x.write32 (e + 8) r.eflags).write32 (e + 4) (estesa r.cs)).write32 e r.eip

/-- The memory with a frame at `e` that leads back to another level. -/
def Registri.telaio (r : Registri) (x : Mem) (e : Word) : Mem :=
  r.telaioInterno ((x.write32 (e + 16) (estesa r.ss)).write32 (e + 12) r.esp) e

section

variable (r : Registri) (x : Mem) (e : Word)

theorem telaioInterno_changes : Mem.ChangesAt (Mem.Within e 12) x (r.telaioInterno x e) := by
  unfold Registri.telaioInterno
  refine (((Mem.ChangesAt.refl x).write32 ?_).write32 ?_).write32 ?_
  · exact fun b hb => hb.of_offset (by decide)
  · exact fun b hb => hb.of_offset (by decide)
  · exact fun b hb => hb.mono (by decide)

theorem telaio_changes : Mem.ChangesAt (SuTelaio e) x (r.telaio x e) := by
  refine Mem.ChangesAt.trans ?_ ((telaioInterno_changes r _ e).mono fun b hb => hb.mono (by decide))
  refine ((Mem.ChangesAt.refl x).write32 ?_).write32 ?_
  · exact fun b hb => hb.of_offset (by decide)
  · exact fun b hb => hb.of_offset (by decide)

theorem telaioInterno_eip : (r.telaioInterno x e).read32 e = r.eip := Mem.read32_write32 _ _ _

theorem telaioInterno_cs : (r.telaioInterno x e).read32 (e + 4) = estesa r.cs := by
  unfold Registri.telaioInterno
  rw [Mem.read32_write32_apart (by unfold Mem.Apart; constructor <;> bv_omega), Mem.read32_write32]

theorem telaioInterno_eflags : (r.telaioInterno x e).read32 (e + 8) = r.eflags := by
  unfold Registri.telaioInterno
  rw [Mem.read32_write32_apart (by unfold Mem.Apart; constructor <;> bv_omega),
    Mem.read32_write32_apart (by unfold Mem.Apart; constructor <;> bv_omega), Mem.read32_write32]

theorem telaio_esp : (r.telaio x e).read32 (e + 12) = r.esp := by
  rw [Registri.telaio, (telaioInterno_changes r _ e).read32 fun b hb h =>
    h.not_offset (by decide) (by decide) hb, Mem.read32_write32]

theorem telaio_ss : (r.telaio x e).read32 (e + 16) = estesa r.ss := by
  rw [Registri.telaio, (telaioInterno_changes r _ e).read32 fun b hb h =>
    h.not_offset (by decide) (by decide) hb,
    Mem.read32_write32_apart (by unfold Mem.Apart; constructor <;> bv_omega), Mem.read32_write32]

theorem telaio_telaio : Telaio r (r.telaio x e) e := by
  refine ⟨telaioInterno_eip r _ e, ?_, telaioInterno_eflags r _ e, fun _ => telaio_esp r x e,
    fun _ => ?_⟩
  · rw [Registri.telaio, telaioInterno_cs, bassa_estesa]
  · rw [telaio_ss, bassa_estesa]

theorem telaioInterno_telaio (h : r.cs &&& 3 = 0) : Telaio r (r.telaioInterno x e) e := by
  refine ⟨telaioInterno_eip r x e, ?_, telaioInterno_eflags r x e, fun hc => absurd h hc,
    fun hc => absurd h hc⟩
  rw [telaioInterno_cs, bassa_estesa]

end

namespace Macchina

variable {m : Macchina}

/-- An interrupt at level 0. -/
theorem interruzione_interna (h : m.cpl = 0) : m.interruzione =
    { reg := { m.reg with
        esp := m.reg.esp - 12, cs := bassa SYSTEMCODESEL, eflags := spenti m.reg.eflags }
      kernel := { m.kernel with mem := m.reg.telaioInterno m.kernel.mem (m.reg.esp - 12) } } := by
  have h4 : m.reg.esp - 4 = m.reg.esp - 12 + 8 := by bv_omega
  have h8 : m.reg.esp - 12 + 8 - 4 = m.reg.esp - 12 + 4 := by bv_omega
  have h12 : m.reg.esp - 12 + 4 - 4 = m.reg.esp - 12 := by bv_omega
  simp only [interruzione, if_pos h, push, h4, h8, h12]
  rfl

/-- An interrupt at level 3. -/
theorem interruzione_esterna (h : m.cpl ≠ 0) : m.interruzione =
    { reg := { m.reg with
        esp := m.kernel.tssEsp0 - 20, ss := SS0, cs := bassa SYSTEMCODESEL
        eflags := spenti m.reg.eflags }
      kernel := { m.kernel with mem := m.reg.telaio m.kernel.mem (m.kernel.tssEsp0 - 20) } } := by
  have h4 : m.kernel.tssEsp0 - 4 = m.kernel.tssEsp0 - 20 + 16 := by bv_omega
  have h8 : m.kernel.tssEsp0 - 20 + 16 - 4 = m.kernel.tssEsp0 - 20 + 12 := by bv_omega
  have h12 : m.kernel.tssEsp0 - 20 + 12 - 4 = m.kernel.tssEsp0 - 20 + 8 := by bv_omega
  have h16 : m.kernel.tssEsp0 - 20 + 8 - 4 = m.kernel.tssEsp0 - 20 + 4 := by bv_omega
  have h20 : m.kernel.tssEsp0 - 20 + 4 - 4 = m.kernel.tssEsp0 - 20 := by bv_omega
  simp only [interruzione, if_neg h, push, h4, h8, h12, h16, h20]
  rfl

end Macchina

/-! ## The context -/

section Contesto

variable {d : DesProc} {off : Nat}

theorem scrivi_context {v : Word} (h : off / 4 < NUMREG) :
    d.scrivi off v = { d with context := Function.update d.context ⟨off / 4, h⟩ v } := dif_pos h

theorem parola_context (h : off / 4 < NUMREG) : d.parola off = d.context ⟨off / 4, h⟩ := dif_pos h

theorem scrivi16_context {v : Selettore} (h : off / 4 < NUMREG) :
    d.scrivi16 off v =
      { d with context :=
          Function.update d.context ⟨off / 4, h⟩ (alta (d.context ⟨off / 4, h⟩) ++ v) } := by
  rw [DesProc.scrivi16, scrivi_context h, parola_context h]

/-- The context that `__salva_stato` leaves in the place of `c`. Of a slot for a selector only
the lower half is written. -/
def Registri.contesto (r : Registri) (c : Fin NUMREG → Word) : Fin NUMREG → Word
  | 0 => r.eax
  | 1 => r.ebx
  | 2 => r.ecx
  | 3 => r.edx
  | 4 => r.esi
  | 5 => r.edi
  | 6 => r.ebp
  | 7 => r.esp
  | 8 => alta (c 8) ++ r.es
  | 9 => alta (c 9) ++ r.fs
  | 10 => alta (c 10) ++ r.gs
  | 11 => alta (c 11) ++ r.ds

/-- The writes of `__salva_stato` in their order. -/
theorem scrivi_contesto (r : Registri) (d : DesProc) :
    ((((((((((((d.scrivi (P_OFFCONTESTO + offEBX) r.ebx).scrivi
      (P_OFFCONTESTO + offECX) r.ecx).scrivi (P_OFFCONTESTO + offEDX) r.edx).scrivi
      (P_OFFCONTESTO + offESI) r.esi).scrivi (P_OFFCONTESTO + offEDI) r.edi).scrivi
      (P_OFFCONTESTO + offEBP) r.ebp).scrivi16 (P_OFFCONTESTO + offES) r.es).scrivi16
      (P_OFFCONTESTO + offFS) r.fs).scrivi16 (P_OFFCONTESTO + offGS) r.gs).scrivi16
      (P_OFFCONTESTO + offDS) r.ds).scrivi (P_OFFCONTESTO + offEAX) r.eax).scrivi
      (P_OFFCONTESTO + offESP) r.esp) = { d with context := r.contesto d.context } := by
  simp (disch := decide) only [scrivi16_context, scrivi_context]
  congr 1
  funext i
  fin_cases i <;> rfl

/-- The slots hold the registers that are not part of the frame. -/
structure Registri.Salvati (r : Registri) (c : Fin NUMREG → Word) : Prop where
  eax : c 0 = r.eax
  ebx : c 1 = r.ebx
  ecx : c 2 = r.ecx
  edx : c 3 = r.edx
  esi : c 4 = r.esi
  edi : c 5 = r.edi
  ebp : c 6 = r.ebp
  es : bassa (c 8) = r.es
  fs : bassa (c 9) = r.fs
  gs : bassa (c 10) = r.gs
  ds : bassa (c 11) = r.ds

theorem Registri.salvati_contesto (r : Registri) (c : Fin NUMREG → Word) :
    r.Salvati (r.contesto c) :=
  ⟨rfl, rfl, rfl, rfl, rfl, rfl, rfl, bassa_append _ _, bassa_append _ _, bassa_append _ _,
    bassa_append _ _⟩

end Contesto

namespace Macchina

variable {m : Macchina}

theorem salvaStato_eq : m.salvaStato =
    { reg := { m.reg with
        eax := indirizzo m.kernel.link m.kernel.esecuzione + BitVec.ofNat 32 P_OFFCONTESTO
        ebx := m.reg.eax
        ds := SYSDATASEL }
      kernel := { m.kernel.aggiorna m.kernel.esecuzione fun d =>
          { d with context := m.reg.contesto d.context } with
        mem := (m.kernel.mem.write32 (m.reg.esp - 4) m.reg.eax).write32 (m.reg.esp - 8)
          (estesa m.reg.ds) } } := by
  have h8 : m.reg.esp - 4 - 4 = m.reg.esp - 8 := by bv_omega
  have h4 : m.reg.esp - 8 + 4 = m.reg.esp - 4 := by bv_omega
  have h0 : m.reg.esp - 4 + 4 = m.reg.esp := by bv_omega
  have hap : Mem.Apart (m.reg.esp - 8) (m.reg.esp - 4) := by
    unfold Mem.Apart
    constructor <;> bv_omega
  unfold salvaStato
  simp only [push, caricaDs, puntaContesto, scriviDes, scriviDes16, popEbx, scarta, cima, h8, h4, h0]
  simp only [Kernel.aggiorna, Function.update_self, Function.update_idem, Mem.read32_write32,
    Mem.read32_write32_apart hap, bassa_estesa, scrivi_contesto]

/-- The slot of `context` from which `__carica_stato` takes the stack. -/
def espSalvato (m : Macchina) : Word := (m.kernel.des m.kernel.esecuzione).context iESP

/-- `iret` to another level. -/
theorem iret_esterno {r : Registri} (ht : Telaio r m.kernel.mem m.reg.esp) (hcs : r.cs &&& 3 ≠ 0) :
    m.iret = { m with reg := { m.reg with
      eip := r.eip, cs := r.cs, eflags := r.eflags, esp := r.esp, ss := r.ss } } := by
  simp only [iret, ht.eip, ht.cs, ht.eflags, ht.esp hcs, ht.ss hcs, if_neg hcs]

theorem iret_kernel : m.iret.kernel = m.kernel := by
  unfold iret
  simp only
  split <;> rfl

theorem caricaStato_kernel : m.caricaStato.kernel =
    { m.kernel with
      tssEsp0 := (m.kernel.des m.kernel.esecuzione).stk 0
      mem := m.kernel.mem.write32 (m.espSalvato - 4)
        ((m.kernel.des m.kernel.esecuzione).context iDS) } := by
  rw [caricaStato, iret_kernel]
  rfl

/-- The push and the pop of `DS` below the frame leave the frame alone. -/
theorem telaio_sotto {r : Registri} {x : Mem} {e : Word} (ht : Telaio r x e) (v : Word) :
    Telaio r (x.write32 (e - 4) v) e :=
  ht.congr ((Mem.ChangesAt.refl x).write32 fun b hb => hb) fun b hb =>
    sotto_telaio hb (by decide) (by decide)

/-- What `__carica_stato` loads for a process of level 3. -/
theorem caricaStato_reg {r : Registri}
    (hc : r.Salvati (m.kernel.des m.kernel.esecuzione).context)
    (ht : Telaio r m.kernel.mem m.espSalvato) (hcs : r.cs &&& 3 ≠ 0) : m.caricaStato.reg = r := by
  have hesp : m.caricaRegistri.reg.esp = m.espSalvato := by
    show m.espSalvato - 4 + 4 = m.espSalvato
    bv_omega
  have hds : m.caricaRegistri.reg.ds = r.ds :=
    (congrArg bassa (Mem.read32_write32 m.kernel.mem (m.espSalvato - 4) _)).trans hc.ds
  have ht' : Telaio r m.caricaRegistri.kernel.mem m.caricaRegistri.reg.esp := by
    rw [hesp]
    exact telaio_sotto ht _
  rw [caricaStato, iret_esterno ht' hcs]
  show ({ m.caricaRegistri.reg with
    eip := r.eip, cs := r.cs, eflags := r.eflags, esp := r.esp, ss := r.ss } : Registri) = r
  have h : m.caricaRegistri.reg = { r with
      esp := m.caricaRegistri.reg.esp, eip := m.caricaRegistri.reg.eip
      eflags := m.caricaRegistri.reg.eflags, cs := m.caricaRegistri.reg.cs
      ss := m.caricaRegistri.reg.ss } := by
    rw [← hc.eax, ← hc.ebx, ← hc.ecx, ← hc.edx, ← hc.esi, ← hc.edi, ← hc.ebp, ← hc.es, ← hc.fs,
      ← hc.gs, ← hds]
    rfl
  rw [h]

end Macchina

end Pitos
