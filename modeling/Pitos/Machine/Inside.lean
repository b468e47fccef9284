import Pitos.Machine.Signals
import Pitos.Refinement.Footprint

/-!
# Inside the kernel

The interrupt and `__salva_stato` write the context of the current process and the top of its
system stack, and so does the way to a `ki_` function, whatever number and arguments the caller
gives (`Dentro`). The frames of the C functions are further down on the same stack. Another process
keeps its context, its stacks and its memory (`Serba`) as long as the whole of that stack is apart
from it (`Lontani`).
-/

namespace Pitos

open Lib

/-! ## Inside the kernel -/

/-- The registers of the interrupted code have been saved in the context of the current process
and in the frame; besides these only words on the way to the `ki_` function are written. -/
structure Macchina.Dentro (m : Macchina) (s : Kernel) : Prop where
  kernel : ∃ x, s = { m.kernel.aggiorna m.kernel.esecuzione fun d =>
      { d with context := { m.reg with esp := m.base }.contesto d.context } with mem := x }
  telaio : Telaio m.reg s.mem m.base
  mem : Mem.ChangesAt m.Zona m.kernel.mem s.mem

section Dentro

variable {m : Macchina} {s : Kernel} {p q : Pid} {img : Immagine} {d : Dichiarazione}

theorem Macchina.Entrata.dentro {c : Macchina} (h : Entrata m c) : m.Dentro c.kernel :=
  ⟨h.kernel, h.telaio, h.mem⟩

/-- The words that `copy_params` pushes, whatever it reads. -/
theorem Macchina.topcopy_mem (n : Nat) (hn : n < 2 ^ 29) (m : Macchina) : ∃ x,
    (topcopy n m).kernel = { m.kernel with mem := x } ∧
      (topcopy n m).reg.esp = m.reg.esp - BitVec.ofNat 32 (4 * n) ∧
      Mem.ChangesAt (Mem.Within (m.reg.esp - BitVec.ofNat 32 (4 * n)) (4 * n)) m.kernel.mem x := by
  induction n generalizing m with
  | zero =>
    have h0 : m.reg.esp - BitVec.ofNat 32 (4 * 0) = m.reg.esp := by bv_omega
    exact ⟨m.kernel.mem, rfl, h0.symm, Mem.ChangesAt.refl _⟩
  | succ n ih =>
    have hesp : m.reg.esp - 4 - BitVec.ofNat 32 (4 * n) =
        m.reg.esp - BitVec.ofNat 32 (4 * (n + 1)) := by bv_omega
    have h4 : m.reg.esp - 4 =
        m.reg.esp - BitVec.ofNat 32 (4 * (n + 1)) + BitVec.ofNat 32 (4 * n) := by bv_omega
    generalize hv : m.kernel.mem.read32 (m.reg.edx + m.reg.ecx * 4 + 4) = v
    have hstep : topcopy (n + 1) m = topcopy n { m.push v with
        reg := { (m.push v).reg with ecx := m.reg.ecx - 1 } } := by
      rw [topcopy, hv]
      rfl
    obtain ⟨x, hx, he, hch⟩ := ih (by omega) { m.push v with
        reg := { (m.push v).reg with ecx := m.reg.ecx - 1 } }
    rw [hstep]
    have hreg : (m.push v).reg.esp = m.reg.esp - 4 := rfl
    simp only [hreg, hesp] at he hch
    have hpush : Mem.ChangesAt
        (Mem.Within (m.reg.esp - BitVec.ofNat 32 (4 * (n + 1))) (4 * (n + 1)))
        m.kernel.mem (m.push v).kernel.mem := (Mem.ChangesAt.refl _).write32 fun b hb => by
      rw [h4] at hb
      apply hb.of_offset
      rw [BitVec.toNat_ofNat]
      omega
    exact ⟨x, hx, he, hpush.trans (hch.mono fun b hb => hb.mono (by omega))⟩

theorem Macchina.topcopy_eax (n : Nat) (m : Macchina) : (topcopy n m).reg.eax = m.reg.eax := by
  induction n generalizing m with
  | zero => rfl
  | succ n ih => exact ih _

/-- A call with a number of the table, wherever on its stack the caller has put it. -/
structure Macchina.Numero (img : Immagine) (m : Macchina) (d : Dichiarazione) : Prop where
  dichiarata : d ∈ syscalls
  tabelle : img.Caricata m.kernel.mem
  fuori : ∀ b, Mem.Within img.syscallTable (4 * img.tabelle.length) b → ¬ m.Zona b
  numero : (m.interruzione.controlla img).reg.eax = BitVec.ofNat 32 d.indice
  funzione : img.ki d.nome ≠ 0

theorem syscalle_dentro (h : m.Numero img d) :
    (syscalle img m.interruzione).1 = .funzione (img.ki d.nome) ∧
      m.Dentro (syscalle img m.interruzione).2.kernel := by
  have hd := syscalls_indice d h.dichiarata
  have hn := syscalls_parametri d h.dichiarata
  have hc := Macchina.controlla_entrata (m := m) img
  have hnum := h.numero
  generalize hcdef : m.interruzione.controlla img = c at hc hnum
  have hpar : c.kernel.mem.read32 (img.syscallParams + c.reg.eax * 4) =
      BitVec.ofNat 32 d.parametri := by
    rw [hnum]
    exact (h.tabelle.voce hc.mem h.fuori hd).2
  have hcopy := copyParams_topcopy (n := d.parametri) (by omega) hpar
  obtain ⟨x, hx, hesp, hch⟩ := Macchina.topcopy_mem d.parametri (by omega)
    { c with reg := { c.reg with ecx := BitVec.ofNat 32 d.parametri } }
  rw [← hcopy] at hx hesp
  have hcesp : c.reg.esp = m.base := hc.esp
  simp only [hcesp] at hesp hch
  have hk : ∀ k, k ≤ 24 → (BitVec.ofNat 32 k).toNat = k := fun k hk => by
    rw [BitVec.toNat_ofNat]
    omega
  have hsub : ∀ b, Mem.Within (m.base - BitVec.ofNat 32 (4 * d.parametri + 4))
      (4 * d.parametri + 4) b → m.Zona b := fun b hb =>
    Macchina.zona_sotto hb (by rw [hk _ (by omega)]; omega) (by rw [hk _ (by omega)])
  have hret : m.base - BitVec.ofNat 32 (4 * d.parametri) - 4 =
      m.base - BitVec.ofNat 32 (4 * d.parametri + 4) := by bv_omega
  have hgrow : ∀ b, Mem.Within (m.base - BitVec.ofNat 32 (4 * d.parametri)) (4 * d.parametri) b →
      Mem.Within (m.base - BitVec.ofNat 32 (4 * d.parametri + 4)) (4 * d.parametri + 4) b := by
    intro b hb
    have hplus : m.base - BitVec.ofNat 32 (4 * d.parametri) =
        m.base - BitVec.ofNat 32 (4 * d.parametri + 4) + 4 := by bv_omega
    rw [hplus] at hb
    exact hb.of_offset (by
      have h4 : (4 : Word).toNat = 4 := rfl
      omega)
  have hx' : Mem.ChangesAt (Mem.Within (m.base - BitVec.ofNat 32 (4 * d.parametri + 4))
      (4 * d.parametri + 4)) c.kernel.mem
      (x.write32 (m.base - BitVec.ofNat 32 (4 * d.parametri + 4)) img.dopoKi) :=
    (hch.mono hgrow).write32 fun b hb => hb.mono (by omega)
  have hzero : c.parolaTabella img ≠ 0 := by
    rw [Macchina.parolaTabella, hnum, (h.tabelle.voce hc.mem h.fuori hd).1]
    exact h.funzione
  obtain ⟨x₀, hx₀⟩ := hc.kernel
  have heax : (c.copyParams img).reg.eax = c.reg.eax := by
    rw [hcopy]
    exact Macchina.topcopy_eax _ _
  have hsys : syscalle img m.interruzione = (.funzione (x.read32 (img.syscallTable + c.reg.eax * 4)),
      (syscalle img m.interruzione).2) ∧ (syscalle img m.interruzione).2.kernel =
        { c.kernel with
          mem := x.write32 (m.base - BitVec.ofNat 32 (4 * d.parametri + 4)) img.dopoKi } := by
    unfold syscalle
    simp only [hcdef]
    rw [if_neg hzero]
    refine ⟨?_, ?_⟩
    · simp only [Macchina.parolaTabella, heax, hx]
    · simp only [Macchina.push, hx, hesp, hret]
  obtain ⟨harr, hker⟩ := hsys
  have hmem : Mem.ChangesAt m.Zona m.kernel.mem x :=
    hc.mem.trans (hch.mono fun b hb => hsub b (hgrow b hb))
  refine ⟨?_, ⟨_, by rw [hker, hx₀]⟩, ?_, ?_⟩
  · rw [congrArg Prod.fst harr, hnum]
    exact congrArg Arrivo.funzione (h.tabelle.voce hmem h.fuori hd).1
  · rw [hker]
    exact hc.telaio.congr hx' fun b hb => sotto_telaio hb (by rw [hk _ (by omega)])
      (by rw [hk _ (by omega)]; omega)
  · rw [hker]
    exact hc.mem.trans (hx'.mono hsub)

/-- A number that is not in the table. -/
theorem syscalle_errata (h : (syscalle img m.interruzione).1 = .badSysCall) :
    m.Dentro (syscalle img m.interruzione).2.kernel := by
  have hc := Macchina.controlla_entrata (m := m) img
  unfold syscalle at h ⊢
  generalize m.interruzione.controlla img = c at hc h
  simp only at h ⊢
  split at h
  · rename_i hzero
    rw [if_pos hzero]
    obtain ⟨x, hx⟩ := hc.kernel
    have h4 : c.reg.esp - 4 - 4 = m.base - 8 := by
      rw [hc.esp]
      bv_omega
    have h0 : c.reg.esp - 4 = m.base - 8 + 4 := by
      rw [hc.esp]
      bv_omega
    have hch : Mem.ChangesAt (Mem.Within (m.base - 8) 8) c.kernel.mem
        ((c.push c.reg.eax).push img.dopoBad).kernel.mem := by
      refine ((Mem.ChangesAt.refl _).write32 fun b hb => ?_).write32 fun b hb => ?_
      · rw [h0] at hb
        exact hb.of_offset (by decide)
      · have hesp : (c.push c.reg.eax).reg.esp - 4 = c.reg.esp - 4 - 4 := rfl
        rw [hesp, h4] at hb
        exact hb.mono (by decide)
    refine ⟨⟨((c.push c.reg.eax).push img.dopoBad).kernel.mem, ?_⟩, ?_, ?_⟩
    · show ({ c.kernel with mem := _ } : Kernel) = _
      rw [hx]
      rfl
    · exact hc.telaio.congr hch fun b hb => sotto_telaio hb (by decide) (by decide)
    · exact hc.mem.trans (hch.mono fun b hb => Macchina.zona_sotto hb (by decide) (by decide))
  · cases h

/-- The call number is on top of a stack that the entry does not write. -/
theorem Macchina.Numero.di_cima (hd : d ∈ syscalls) (hT : img.Caricata m.kernel.mem) {n : Nat}
    (hp : m.PilaLibera img n) (hn : 4 ≤ n) (hnum : m.cima = BitVec.ofNat 32 d.indice)
    (hki : img.ki d.nome ≠ 0) : m.Numero img d :=
  ⟨hd, hT, hp.tabelle, (Macchina.controlla_numero hp hn).eax.trans hnum, hki⟩

end Dentro

/-! ## One process and the others -/

/-- What `p` has in `s` it has in `t`: its context, its stacks, and the bytes of `W`. -/
structure Kernel.Serba (p : Pid) (W : Word → Prop) (s t : Kernel) : Prop where
  context : (t.des (some p)).context = (s.des (some p)).context
  stk : (t.des (some p)).stk = (s.des (some p)).stk
  mem : ∀ b, W b → t.mem b = s.mem b

/-- The system stack that starts at `x`, as `alloca_stack` makes it. -/
def PilaSistema (x b : Word) : Prop := Mem.Within (x - 4096) 4096 b

theorem PilaSistema.of_within {x k b : Word} {n : Nat} (h : Mem.Within (x - k) n b)
    (hk : k.toNat ≤ 4096) (hn : n ≤ k.toNat) : PilaSistema x b := by
  have hsum : x - k = x - 4096 + (4096 - k) := by bv_omega
  rw [hsum] at h
  apply h.of_offset
  bv_omega

/-- The system stacks of the other processes, and the places where they have saved their state,
have no byte in `Q`. -/
structure Kernel.Lontani (p : Pid) (Q : Word → Prop) (s : Kernel) : Prop where
  pila : ∀ q, q ≠ p → ∀ b, PilaSistema ((s.des (some q)).stk 0) b → ¬ Q b
  esp : ∀ q, q ≠ p → ∀ b, Mem.Within ((s.des (some q)).context iESP - 24) 44 b → ¬ Q b

/-- The frame at `e` and the bytes of `U`. -/
def Riservati (e : Word) (U : Word → Prop) (b : Word) : Prop := SuTelaio e b ∨ U b

section Serba

variable {p q : Pid} {W Q : Word → Prop} {s t u : Kernel} {m : Macchina} {r : Registri} {e : Word}

namespace Kernel.Serba

theorem of_quieto (h : Quieto s t) : s.Serba p W t :=
  ⟨(h.conservati _).context, (h.conservati _).stk, fun b _ => by rw [h.mem]⟩

theorem of_intatti (h : Intatti s t) (hm : ∀ b, W b → t.mem b = s.mem b) : s.Serba p W t :=
  ⟨(h _).1, (h _).2, hm⟩

theorem sospeso (h : s.Serba p W t) (hW : ∀ b, SuTelaio e b → W b) (hs : Sospeso p r e s) :
    Sospeso p r e t := hs.congr h.context fun b hb => h.mem b (hW b hb)

end Kernel.Serba

namespace Kernel.Lontani

theorem of_intatti (h : s.Lontani p Q) (hi : Intatti s t) : t.Lontani p Q := by
  refine ⟨fun q hq b hb => h.pila q hq b ?_, fun q hq b hb => h.esp q hq b ?_⟩
  · rwa [(hi _).2] at hb
  · rwa [(hi _).1] at hb

end Kernel.Lontani

namespace Macchina.Dentro

theorem stk (h : m.Dentro s) (x : DesPtr) : (s.des x).stk = (m.kernel.des x).stk := by
  obtain ⟨y, rfl⟩ := h.kernel
  show (Function.update m.kernel.des m.kernel.esecuzione _ x).stk = _
  by_cases hx : x = m.kernel.esecuzione
  · rw [hx, Function.update_self]
  · rw [Function.update_of_ne hx]

/-- Another context than that of the current process. -/
theorem altro (h : m.Dentro s) {x : DesPtr} (hx : x ≠ m.kernel.esecuzione) :
    s.des x = m.kernel.des x := by
  obtain ⟨y, rfl⟩ := h.kernel
  exact Function.update_of_ne hx _ _

theorem esecuzione (h : m.Dentro s) : s.esecuzione = m.kernel.esecuzione := by
  obtain ⟨y, rfl⟩ := h.kernel
  rfl

theorem tss (h : m.Dentro s) : s.tssEsp0 = m.kernel.tssEsp0 := by
  obtain ⟨y, rfl⟩ := h.kernel
  rfl

theorem esp (h : m.Dentro s) : (s.des m.kernel.esecuzione).context iESP = m.base := by
  obtain ⟨y, rfl⟩ := h.kernel
  show (Function.update m.kernel.des m.kernel.esecuzione _ m.kernel.esecuzione).context iESP = _
  rw [Function.update_self]
  rfl

theorem sospeso (h : m.Dentro s) (he : m.kernel.esecuzione = some p) : Sospeso p m.reg m.base s :=
  .entrata h.kernel h.telaio he

/-- The entry of another process. -/
theorem serba (h : m.Dentro s) (he : m.kernel.esecuzione ≠ some p)
    (hz : ∀ b, m.Zona b → ¬ W b) : m.kernel.Serba p W s := by
  have hd := h.altro (x := some p) (Ne.symm he)
  exact ⟨by rw [hd], by rw [hd], fun b hb => h.mem b fun hb' => hz b hb' hb⟩

/-- The current process has saved its state at `m.base`. -/
theorem lontani (h : m.Dentro s) (hl : m.kernel.Lontani p Q) (he : m.kernel.esecuzione = some q)
    (hz : q ≠ p → ∀ b, Mem.Within (m.base - 24) 44 b → ¬ Q b) : s.Lontani p Q := by
  refine ⟨fun x hx b hb => hl.pila x hx b (by rwa [h.stk] at hb), ?_⟩
  intro x hx b hb
  by_cases hxq : x = q
  · subst hxq
    have hesp := h.esp
    rw [he] at hesp
    rw [hesp] at hb
    exact hz hx b hb
  · rw [h.altro (by rw [he]; exact fun h => hxq (Option.some.inj h))] at hb
    exact hl.esp x hx b hb

end Macchina.Dentro

end Serba

end Pitos
