import Pitos.Machine.Passage
import Pitos.Refinement.Registers

/-!
# A suspended process and the frames of its signals

While a process of level 3 is not running, the registers with which it goes on are in its
context and in the frame on its system stack (`Sospeso`). `add_apc` and `ki___signalrespin`
edit the frame: the process goes on in the handler, on a piece of stack of twelve bytes below
its own, or past the signal number that the handler had as its argument.
-/

namespace Pitos

open Lib

/-- The process `p` goes on with the registers `r`; its frame is at `e`. -/
structure Sospeso (p : Pid) (r : Registri) (e : Word) (s : Kernel) : Prop where
  contesto : r.Salvati (s.des (some p)).context
  esp : (s.des (some p)).context iESP = e
  telaio : Telaio r s.mem e

namespace Sospeso

variable {p : Pid} {r : Registri} {e : Word} {s t : Kernel}

/-- What the interrupt and `__salva_stato` leave. -/
theorem entrata {m : Macchina} (hk : ∃ x, s = { m.kernel.aggiorna m.kernel.esecuzione fun d =>
      { d with context := { m.reg with esp := m.base }.contesto d.context } with mem := x })
    (ht : Telaio m.reg s.mem m.base) (hm : m.kernel.esecuzione = some p) :
    Sospeso p m.reg m.base s := by
  obtain ⟨x, hx⟩ := hk
  have hdes : (s.des (some p)).context =
      ({ m.reg with esp := m.base } : Registri).contesto (m.kernel.des (some p)).context := by
    rw [hx, hm]
    simp [Kernel.aggiorna]
  have hsal := Registri.salvati_contesto { m.reg with esp := m.base }
    (m.kernel.des (some p)).context
  rw [← hdes] at hsal
  refine ⟨⟨hsal.eax, hsal.ebx, hsal.ecx, hsal.edx, hsal.esi, hsal.edi, hsal.ebp, hsal.es, hsal.fs,
    hsal.gs, hsal.ds⟩, ?_, ht⟩
  rw [hdes]
  rfl

/-- Only the context, the frame and nothing else count. -/
theorem congr (h : Sospeso p r e s) (hd : (t.des (some p)).context = (s.des (some p)).context)
    (hm : ∀ b, SuTelaio e b → t.mem b = s.mem b) : Sospeso p r e t := by
  have hch : Mem.ChangesAt (fun b => ¬ SuTelaio e b) s.mem t.mem := fun b hb => hm b (not_not.mp hb)
  refine ⟨?_, hd ▸ h.esp, h.telaio.congr hch fun b hb hb' => hb' hb⟩
  rw [hd]
  exact h.contesto

/-- `carica_stato` loads the registers, and the system stack of the process. -/
theorem carica {m : Macchina} (h : Sospeso p r e m.kernel) (he : m.kernel.esecuzione = some p)
    (hcs : r.cs &&& 3 ≠ 0) :
    m.caricaStato.reg = r ∧ m.caricaStato.kernel.tssEsp0 = (m.kernel.des (some p)).stk 0 := by
  have hesp : m.espSalvato = e := by
    unfold Macchina.espSalvato
    rw [he]
    exact h.esp
  constructor
  · refine Macchina.caricaStato_reg ?_ ?_ hcs
    · rw [he]
      exact h.contesto
    · rw [hesp]
      exact h.telaio
  · rw [Macchina.caricaStato_kernel, he]

end Sospeso

/-! ## The edits of the frame -/

section Telaio

variable {r : Registri} {x : Mem} {e v : Word}

/-- A new user stack pointer. -/
theorem Telaio.conEsp (h : Telaio r x e) (v : Word) :
    Telaio { r with esp := v } (x.write32 (e + 12) v) e := by
  have h0 : Mem.Apart (e + 12) e := (Mem.Apart.base (by decide)).symm
  have h4 : Mem.Apart (e + 12) (e + 4) := Mem.Apart.offset (by decide)
  have h8 : Mem.Apart (e + 12) (e + 8) := Mem.Apart.offset (by decide)
  have h16 : Mem.Apart (e + 12) (e + 16) := Mem.Apart.offset (by decide)
  refine ⟨?_, ?_, ?_, fun _ => Mem.read32_write32 _ _ _, ?_⟩
  · rw [Mem.read32_write32_apart h0]
    exact h.eip
  · rw [Mem.read32_write32_apart h4]
    exact h.cs
  · rw [Mem.read32_write32_apart h8]
    exact h.eflags
  · intro hc
    rw [Mem.read32_write32_apart h16]
    exact h.ss hc

/-- Another place to go on. -/
theorem Telaio.conEip (h : Telaio r x e) (v : Word) :
    Telaio { r with eip := v } (x.write32 e v) e := by
  have h4 : Mem.Apart e (e + 4) := Mem.Apart.base (by decide)
  have h8 : Mem.Apart e (e + 8) := Mem.Apart.base (by decide)
  have h12 : Mem.Apart e (e + 12) := Mem.Apart.base (by decide)
  have h16 : Mem.Apart e (e + 16) := Mem.Apart.base (by decide)
  refine ⟨Mem.read32_write32 _ _ _, ?_, ?_, ?_, ?_⟩
  · rw [Mem.read32_write32_apart h4]
    exact h.cs
  · rw [Mem.read32_write32_apart h8]
    exact h.eflags
  · intro hc
    rw [Mem.read32_write32_apart h12]
    exact h.esp hc
  · intro hc
    rw [Mem.read32_write32_apart h16]
    exact h.ss hc

end Telaio

/-- The two pieces of memory have no byte in common. -/
def Fuori (a : Word) (n : Nat) (e : Word) : Prop := ∀ b, Mem.Within a n b → ¬ SuTelaio e b

section Consegna

variable {p : Pid} {r : Registri} {e fx param : Word} {s : Kernel}

/-- The bytes that `add_apc` writes. -/
def SuConsegna (u e : Word) (b : Word) : Prop := Mem.Within (u - 12) 12 b ∨ SuTelaio e b

/-- The handler is about to run, with its return address, its argument and the interrupted
`EIP` on the stack. -/
structure Consegnato (p : Pid) (r : Registri) (e fx param : Word) (s t : Kernel) : Prop where
  sospeso : Sospeso p { r with eip := fx, esp := r.esp - 12 } e t
  ritorno : t.mem.read32 (r.esp - 12) = s.link.signalrespin
  parametro : t.mem.read32 (r.esp - 8) = param
  eip : t.mem.read32 (r.esp - 4) = r.eip
  altrove : Mem.ChangesAt (SuConsegna r.esp e) s.mem t.mem

theorem addApc_consegnato (fx param : Word) (h : Sospeso p r e s) (hcs : r.cs &&& 3 ≠ 0)
    (hf : Fuori (r.esp - 12) 12 e) : Consegnato p r e fx param s (addApc (some p) fx param s) := by
  generalize hu : r.esp - 12 = u at hf
  have h4 : r.esp - 8 = u + 4 := by bv_omega
  have h8 : r.esp - 4 = u + 8 := by bv_omega
  have hesp : s.mem.read32 (e + 12) = r.esp := h.telaio.esp hcs
  let y := (s.mem.write32 u s.link.signalrespin).write32 (u + 4) param
  have hy : Mem.ChangesAt (Mem.Within u 12) s.mem y :=
    ((Mem.ChangesAt.refl _).write32 fun b hb => hb.mono (by decide)).write32
      fun b hb => hb.of_offset (by decide)
  have heip : y.read32 e = r.eip :=
    (hy.read32 fun b hb hb' => hf b hb' (hb.mono (by decide))).trans h.telaio.eip
  have hz : s.mem.writeWords u [s.link.signalrespin, param, r.eip] = y.write32 (u + 8) r.eip := by
    simp only [Mem.writeWords, (show u + 4 + 4 = u + 8 by bv_omega)]
    rfl
  have hzch : Mem.ChangesAt (Mem.Within u 12) s.mem (y.write32 (u + 8) r.eip) :=
    hy.write32 fun b hb => hb.of_offset (by decide)
  have hmem : (addApc (some p) fx param s).mem =
      ((y.write32 (u + 8) r.eip).write32 e fx).write32 (e + 12) u := by
    unfold addApc
    simp only [h.esp, hesp, hu]
    rw [show ((s.mem.write32 u s.link.signalrespin).write32 (u + 4) param).read32 e = r.eip from heip]
  have hedit : Mem.ChangesAt (SuTelaio e) (y.write32 (u + 8) r.eip)
      (((y.write32 (u + 8) r.eip).write32 e fx).write32 (e + 12) u) :=
    ((Mem.ChangesAt.refl _).write32 fun b hb => hb.mono (by decide)).write32
      fun b hb => hb.of_offset (by decide)
  have hword : ∀ {i : Nat} {w : Word}, [s.link.signalrespin, param, r.eip][i]? = some w → i < 3 →
      (addApc (some p) fx param s).mem.read32 (u + BitVec.ofNat 32 (4 * i)) = w := by
    intro i w hw hi
    rw [hmem, hedit.read32, ← hz, Mem.read32_writeWords hw (show 4 * 3 < 2 ^ 32 by decide)]
    intro b hb
    refine hf b (hb.of_offset ?_)
    rw [BitVec.toNat_ofNat]
    omega
  have i0 : u + BitVec.ofNat 32 (4 * 0) = u := by bv_omega
  have i1 : u + BitVec.ofNat 32 (4 * 1) = u + 4 := by bv_omega
  have i2 : u + BitVec.ofNat 32 (4 * 2) = u + 8 := by bv_omega
  refine ⟨⟨?_, ?_, ?_⟩, ?_, ?_, ?_, ?_⟩
  · obtain ⟨c0, c1, c2, c3, c4, c5, c6, c7, c8, c9, c10⟩ := h.contesto
    exact ⟨c0, c1, c2, c3, c4, c5, c6, c7, c8, c9, c10⟩
  · exact h.esp
  · rw [hmem, hu]
    have ht : Telaio r (y.write32 (u + 8) r.eip) e :=
      h.telaio.congr hzch fun b hb hb' => hf b hb' hb
    exact (ht.conEip fx).conEsp u
  · rw [hu, ← i0]
    exact hword rfl (by decide)
  · rw [h4, ← i1]
    exact hword rfl (by decide)
  · rw [h8, ← i2]
    exact hword rfl (by decide)
  · rw [hmem]
    refine (hzch.mono fun b hb => Or.inl ?_).trans (hedit.mono fun b hb => Or.inr hb)
    rwa [hu]

/-- The stack pointer moves up by one word, and the word it pointed to with it. -/
theorem kiSignalrespin_sospeso (h : Sospeso p r e s) (he : s.esecuzione = some p)
    (hcs : r.cs &&& 3 ≠ 0) (hf : Fuori (r.esp + 4) 4 e) :
    Sospeso p { r with esp := r.esp + 4 } e (kiSignalrespin s) ∧
      Mem.ChangesAt (fun b => Mem.Within (r.esp + 4) 4 b ∨ SuTelaio e b) s.mem
        (kiSignalrespin s).mem := by
  have hesp : s.mem.read32 (e + 12) = r.esp := h.telaio.esp hcs
  have hmem : (kiSignalrespin s).mem =
      (s.mem.write32 (r.esp + 4) (s.mem.read32 r.esp)).write32 (e + 12) (r.esp + 4) := by
    unfold kiSignalrespin
    simp only [he, h.esp, hesp]
  have hch : Mem.ChangesAt (Mem.Within (r.esp + 4) 4) s.mem
      (s.mem.write32 (r.esp + 4) (s.mem.read32 r.esp)) :=
    (Mem.ChangesAt.refl _).write32 fun b hb => hb
  refine ⟨⟨?_, h.esp, ?_⟩, ?_⟩
  · obtain ⟨c0, c1, c2, c3, c4, c5, c6, c7, c8, c9, c10⟩ := h.contesto
    exact ⟨c0, c1, c2, c3, c4, c5, c6, c7, c8, c9, c10⟩
  · rw [hmem]
    exact (h.telaio.congr hch fun b hb hb' => hf b hb' hb).conEsp (r.esp + 4)
  · rw [hmem]
    exact (hch.mono fun b hb => Or.inl hb).write32 fun b hb => Or.inr (hb.of_offset (by decide))

end Consegna

/-! ## The call of `__signalrespin` -/

section Respin

variable {p : Pid} {img : Immagine} {m : Macchina} {n : Nat}

theorem zona_telaio {b : Word} (hcpl : m.cpl ≠ 0) (hb : SuTelaio m.base b) : m.Zona b := by
  apply Macchina.zona_base
  rw [if_neg hcpl]
  exact hb

/-- The words of the caller are not on the frame. -/
theorem Macchina.PilaLibera.fuori (hp : m.PilaLibera img n) (hcpl : m.cpl ≠ 0) {k : Word} {l : Nat}
    (hk : k.toNat + l ≤ n) : Fuori (m.reg.esp + k) l m.base := fun _ hb hb' =>
  hp.chiamante _ (hb.of_offset hk) (zona_telaio hcpl hb')

/-- What `ki___signalrespin` leaves when the stub has called it: the process goes on behind
`int 0x30`, with the stack pointer one word higher. -/
structure Respinto (p : Pid) (m : Macchina) (k : Kernel) : Prop where
  sospeso : Sospeso p { m.reg with esp := m.reg.esp + 4 } m.base k
  esecuzione : k.esecuzione = some p
  mask : (k.des (some p)).sigMask = (m.kernel.des (some p)).sigMask
  mem : Mem.ChangesAt (fun b => m.Zona b ∨ Mem.Within (m.reg.esp + 4) 4 b) m.kernel.mem k.mem

theorem signalrespin_respinto (hT : img.Caricata m.kernel.mem) (hp : m.PilaLibera img 28)
    (hnum : m.cima = 13) (hki : img.ki .signalrespin ≠ 0) (hcpl : m.cpl ≠ 0)
    (he : m.kernel.esecuzione = some p) :
    (syscalle img m.interruzione).1 = .funzione (img.ki .signalrespin) ∧
      Respinto p m (kiSignalrespin (syscalle img m.interruzione).2.kernel) := by
  have hf := syscalle_funzione (d := ⟨.signalrespin, 0, 13⟩) hT hp rfl hnum hki
  have hs : Sospeso p m.reg m.base (syscalle img m.interruzione).2.kernel :=
    .entrata hf.kernel hf.telaio he
  obtain ⟨x, hx⟩ := hf.kernel
  have he' : (syscalle img m.interruzione).2.kernel.esecuzione = some p := by
    rw [hx]
    exact he
  obtain ⟨hs', hch⟩ := kiSignalrespin_sospeso hs he' hcpl (hp.fuori hcpl (by decide))
  refine ⟨hf.arrivo, hs', he', ?_, ?_⟩
  · have hd : ((syscalle img m.interruzione).2.kernel.des (some p)).sigMask =
        (m.kernel.des (some p)).sigMask := by
      rw [hx, he]
      simp [Kernel.aggiorna]
    exact hd
  · refine (hf.mem.mono fun b hb => Or.inl hb).trans (hch.mono fun b hb => ?_)
    rcases hb with hb | hb
    · exact Or.inr hb
    · exact Or.inl (zona_telaio hcpl hb)

end Respin

/-! ## The delivery -/

/-- The first signal pending on `p` is `j`, and its handler is the function `fx`. -/
structure Kernel.Gestito (s : Kernel) (p : Pid) (j : Fin SIGCOUNT) (fx : Word) : Prop where
  primo : getlsb (s.des (some p)).sigMask = some j.val
  gestore : (s.des (some p)).sigHandlers j = fx
  funzione : fx ≠ SIG_IGN ∧ fx ≠ SIG_DFL ∧ fx ≠ SIG_ERR

section Gestito

variable {p : Pid} {j : Fin SIGCOUNT} {fx : Word} {s t : Kernel}

theorem getlsb_zero : getlsb 0 = none := by decide

theorem Kernel.Gestito.mask (h : s.Gestito p j fx) : (s.des (some p)).sigMask ≠ 0 := by
  intro h0
  have := h.primo
  rw [h0, getlsb_zero] at this
  cases this

theorem Kernel.Gestito.congr (h : s.Gestito p j fx)
    (hd : StessiRegistri (s.des (some p)) (t.des (some p))) : t.Gestito p j fx :=
  ⟨hd.sigMask ▸ h.primo, hd.sigHandlers ▸ h.gestore, h.funzione⟩

theorem handlesignals_gestito (h : s.Gestito p j fx) (he : s.esecuzione = some p) :
    handlesignals s = .ok (addApc (some p) fx (BitVec.ofNat 32 j.val)
      (s.aggiorna (some p) (DesProc.preso j))) := by
  obtain ⟨hign, hdfl, herr⟩ := h.funzione
  have hj : (⟨j.val, j.isLt⟩ : Fin SIGCOUNT) = j := rfl
  rw [handlesignals, he]
  simp only [h.primo]
  rw [dif_pos j.isLt, hj, h.gestore, if_neg hign, if_neg hdfl, if_neg herr]
  have he' : (s.aggiorna (some p) (DesProc.preso j)).esecuzione = some p := he
  change Except.ok (addApc (s.aggiorna (some p) (DesProc.preso j)).esecuzione fx _
    (s.aggiorna (some p) (DesProc.preso j))) = _
  rw [he']

/-- `cdriver_t` gives the current process a frame for its signal. -/
theorem cdriverT_gestito (h : s.Gestito p j fx) (he : s.esecuzione = some p)
    (ht : cdriverT s = .ok t) :
    ∃ s₁, (s₁.des (some p)).context = (s.des (some p)).context ∧ s₁.mem = s.mem ∧
      s₁.link = s.link ∧ Quieto (addApc (some p) fx (BitVec.ofNat 32 j.val) s₁) t := by
  obtain ⟨s₂, h₂, ht⟩ := bind_ok ht
  obtain ⟨s₃, h₃, ht⟩ := bind_ok ht
  have hq := scadenze_quieto h₂
  have he₂ : s₂.esecuzione = some p := (scadenze_code h₂).esecuzione.trans he
  let s₄ := s₂.aggiorna (some p) DesProc.contato
  have hconta : Quieto s₂ s₄ := .aggiorna s₂ (some p) fun _ => ⟨rfl, rfl, rfl, rfl, rfl⟩
  have hg : s₄.Gestito p j fx := h.congr ((hq.trans hconta).conservati (some p))
  have he₄ : s₄.esecuzione = some p := he₂
  rw [addebita, he₂] at h₃
  have h₃' : (if (s₄.des s₄.esecuzione).sigMask ≠ 0 then handlesignals s₄ else .ok s₄) = .ok s₃ :=
    h₃
  rw [he₄, if_pos hg.mask, handlesignals_gestito hg he₄] at h₃'
  obtain rfl := Except.ok.inj h₃'
  refine ⟨_, ?_, ?_, ?_, turno_quieto ht⟩
  · rw [Kernel.des_aggiorna, Function.update_self]
    exact ((hq.trans hconta).conservati (some p)).context
  · exact (hq.trans hconta).mem
  · exact (hq.trans hconta).link

end Gestito

end Pitos
