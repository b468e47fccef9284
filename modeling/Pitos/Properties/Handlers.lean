import Pitos.Machine.Signals
import Pitos.Properties.Syscalls

/-!
# The registers across a handler

A signal caught at a timer interrupt: `add_apc` saves the interrupted `EIP` on the user stack
and nothing else. The handler may change `EAX`, `ECX`, `EDX` and the flags, and the stub of
`__signalrespin` ends with `add esp, 4`, which sets the arithmetic flags; so these come back as
they were only if the handler and the addition leave them so.
-/

namespace Pitos

open Lib

/-! ## The handler -/

/-- `carica_stato` is about to dispatch the process `p` with the context and the frames that
the kernel left in `k`: the one on the system stack, of the interrupt in `m`, and the one of the
signal. -/
structure Macchina.Ripresa (d : Macchina) (p : Pid) (m : Macchina) (k : Kernel) : Prop where
  esecuzione : d.kernel.esecuzione = some p
  context : (d.kernel.des (some p)).context = (k.des (some p)).context
  mem : ∀ b, SuConsegna m.reg.esp m.base b → d.kernel.mem b = k.mem b

/-- A handler, entered in the state `i`, is at its `ret` in the state `r`: it has kept what the
calling convention says, and the stack from its return address up, its argument apart. -/
structure Convenzione (i r : Macchina) : Prop where
  ebx : r.reg.ebx = i.reg.ebx
  esi : r.reg.esi = i.reg.esi
  edi : r.reg.edi = i.reg.edi
  ebp : r.reg.ebp = i.reg.ebp
  esp : r.reg.esp = i.reg.esp
  cs : r.reg.cs = i.reg.cs
  cima : r.cima = i.cima
  sopra : r.kernel.mem.read32 (r.reg.esp + 8) = i.kernel.mem.read32 (i.reg.esp + 8)

/-- The registers of the interrupted computation. -/
structure Riprende (m f : Macchina) : Prop where
  eip : f.reg.eip = m.reg.eip
  eax : f.reg.eax = m.reg.eax
  ebx : f.reg.ebx = m.reg.ebx
  ecx : f.reg.ecx = m.reg.ecx
  edx : f.reg.edx = m.reg.edx
  esi : f.reg.esi = m.reg.esi
  edi : f.reg.edi = m.reg.edi
  ebp : f.reg.ebp = m.reg.ebp
  eflags : f.reg.eflags = m.reg.eflags

section Gestore

variable {p : Pid} {j : Fin SIGCOUNT} {fx : Word} {m d : Macchina} {k : Kernel}

/-- The handler is entered with its argument, and returns to `__signalrespin`. -/
structure Gestore (m : Macchina) (fx : Word) (j : Fin SIGCOUNT) (l : Link) (i : Macchina) : Prop
    where
  reg : i.reg = { m.reg with eip := fx, esp := m.reg.esp - 12 }
  ritorno : i.cima = l.signalrespin
  parametro : i.argomento 0 = BitVec.ofNat 32 j.val
  eip : i.kernel.mem.read32 (m.reg.esp - 4) = m.reg.eip

/-- The words of the signal's frame are not touched by the push of `DS` in `carica_stato`. -/
theorem carica_sopra {e u : Word} (hesp : d.espSalvato = e)
    (hf : ∀ b, Mem.Within (u - 12) 12 b → ¬ Mem.Within (e - 24) 44 b) {a : Word}
    (ha : ∀ b, Mem.Within a 4 b → Mem.Within (u - 12) 12 b) :
    d.caricaStato.kernel.mem.read32 a = d.kernel.mem.read32 a := by
  rw [Macchina.caricaStato_kernel, hesp]
  have hch : Mem.ChangesAt (Mem.Within (e - 4) 4) d.kernel.mem (d.kernel.mem.write32 (e - 4)
      ((d.kernel.des d.kernel.esecuzione).context iDS)) :=
    (Mem.ChangesAt.refl _).write32 fun b hb => hb
  refine hch.read32 fun b hb hb' => hf b (ha b hb) ?_
  have h20 : e - 4 = e - 24 + 20 := by bv_omega
  rw [h20] at hb'
  exact hb'.of_offset (by decide)

theorem gestore_entra (hcpl : m.cpl ≠ 0) (hm : m.kernel.esecuzione = some p)
    (hg : m.kernel.Gestito p j fx) (hsep : ∀ b, Mem.Within (m.reg.esp - 12) 12 b → ¬ m.Zona b)
    (hk : cdriverT m.interruzione.salvaStato.kernel = .ok k) (hd : d.Ripresa p m k) :
    Gestore m fx j m.kernel.link d.caricaStato := by
  have hent := Macchina.entrata (m := m)
  obtain ⟨x, hx⟩ := hent.kernel
  have hs : Sospeso p m.reg m.base m.interruzione.salvaStato.kernel :=
    .entrata hent.kernel hent.telaio hm
  have hg' : m.interruzione.salvaStato.kernel.Gestito p j fx := by
    refine ⟨?_, ?_, hg.funzione⟩
    · rw [hx, hm]
      simpa [Kernel.aggiorna] using hg.primo
    · rw [hx, hm]
      simpa [Kernel.aggiorna] using hg.gestore
  have he' : m.interruzione.salvaStato.kernel.esecuzione = some p := by
    rw [hx]
    exact hm
  obtain ⟨s₁, hc₁, hm₁, hl₁, hq⟩ := cdriverT_gestito hg' he' hk
  have hs₁ : Sospeso p m.reg m.base s₁ := hs.congr hc₁ fun b _ => by rw [hm₁]
  have hfuori : Fuori (m.reg.esp - 12) 12 m.base := fun b hb hb' =>
    hsep b hb (zona_telaio hcpl hb')
  have hcons := addApc_consegnato fx (BitVec.ofNat 32 j.val) hs₁ hcpl hfuori
  have hmem : ∀ b, SuConsegna m.reg.esp m.base b →
      d.kernel.mem b = (addApc (some p) fx (BitVec.ofNat 32 j.val) s₁).mem b := fun b hb => by
    rw [hd.mem b hb, hq.mem]
  have hsd : Sospeso p { m.reg with eip := fx, esp := m.reg.esp - 12 } m.base d.kernel := by
    refine hcons.sospeso.congr ?_ fun b hb => hmem b (Or.inr hb)
    rw [hd.context, (hq.conservati (some p)).context]
  have hlink : s₁.link = m.kernel.link := by
    rw [hl₁, hx]
    rfl
  have hespd : d.espSalvato = m.base := by
    unfold Macchina.espSalvato
    rw [hd.esecuzione]
    exact hsd.esp
  have hz : ∀ b, Mem.Within (m.reg.esp - 12) 12 b → ¬ Mem.Within (m.base - 24) 44 b := by
    intro b hb hb'
    apply hsep b hb
    unfold Macchina.Zona
    rwa [if_neg hcpl]
  have hreg := (hsd.carica hd.esecuzione hcpl).1
  have hword : ∀ a : Word, (∀ b, Mem.Within a 4 b → Mem.Within (m.reg.esp - 12) 12 b) →
      d.caricaStato.kernel.mem.read32 a =
        (addApc (some p) fx (BitVec.ofNat 32 j.val) s₁).mem.read32 a := fun a ha => by
    rw [carica_sopra hespd hz ha]
    have hch : Mem.ChangesAt (fun b => ¬ Mem.Within (m.reg.esp - 12) 12 b)
        (addApc (some p) fx (BitVec.ofNat 32 j.val) s₁).mem d.kernel.mem := fun b hb =>
      hmem b (Or.inl (not_not.mp hb))
    exact hch.read32 fun b hb hb' => hb' (ha b hb)
  have h4 : m.reg.esp - 8 = m.reg.esp - 12 + 4 := by bv_omega
  have h8 : m.reg.esp - 4 = m.reg.esp - 12 + 8 := by bv_omega
  refine ⟨hreg, ?_, ?_, ?_⟩
  · unfold Macchina.cima
    rw [hreg]
    show d.caricaStato.kernel.mem.read32 (m.reg.esp - 12) = _
    rw [hword _ fun b hb => hb.mono (by decide), hcons.ritorno, hlink]
  · have harg : m.reg.esp - 12 + 4 + BitVec.ofNat 32 (4 * 0) = m.reg.esp - 8 := by bv_omega
    unfold Macchina.argomento
    rw [hreg]
    show d.caricaStato.kernel.mem.read32 (m.reg.esp - 12 + 4 + BitVec.ofNat 32 (4 * 0)) = _
    rw [harg, hword _ fun b hb => ?_, hcons.parametro]
    rw [h4] at hb
    exact hb.of_offset (by decide)
  · rw [hword _ fun b hb => ?_, hcons.eip]
    rw [h8] at hb
    exact hb.of_offset (by decide)

/-- `__signalrespin`, entered by the `ret` of the handler, gives the CPU back behind its
`int 0x30`. -/
theorem respin_torna {img : Immagine} {c : Macchina} (hT : img.Caricata c.kernel.mem)
    (hP : c.PilaLibera img 28) (hnum : c.cima = 13) (hki : img.ki .signalrespin ≠ 0)
    (hcpl : c.cpl ≠ 0) (he : c.kernel.esecuzione = some p)
    (hmask : (c.kernel.des (some p)).sigMask = 0) :
    ∃ f, Macchina.Chiama img .signalrespin c f ∧ f.reg = { c.reg with esp := c.reg.esp + 4 } ∧
      Mem.ChangesAt (fun b => c.Zona b ∨ Mem.Within (c.reg.esp + 4) 4 b) c.kernel.mem
        f.kernel.mem := by
  obtain ⟨harr, hr⟩ := signalrespin_respinto hT hP hnum hki hcpl he
  generalize hsys : syscalle img c.interruzione = x at harr hr
  generalize hk : kiSignalrespin x.2.kernel = k at hr
  have hcheck : Pitos.signalsCheck k = .ok k := by
    unfold Pitos.signalsCheck
    rw [hr.esecuzione, if_neg (by rintro ⟨⟩), hr.mask, hmask, if_neg (by simp)]
  have hreg := (hr.sospeso.carica (m := x.2.conKernel k) hr.esecuzione hcpl).1
  have hesp : (x.2.conKernel k).espSalvato = c.base := by
    show (k.des k.esecuzione).context iESP = _
    rw [hr.esecuzione]
    exact hr.sospeso.esp
  refine ⟨(x.2.conKernel k).caricaStato, ⟨hsys ▸ harr, ?_⟩, hreg, ?_⟩
  · rw [hsys]
    show (Pitos.signalsCheck (kiSignalrespin x.2.kernel) >>= fun k => _) = _
    rw [hk, hcheck]
    rfl
  · rw [Macchina.caricaStato_kernel, hesp]
    exact hr.mem.write32 fun b hb => Or.inl (Macchina.zona_sotto hb (by decide) (by decide))

/-- The handler returns, and the stub after it: the registers are those that the handler left,
with the flags of the addition. -/
theorem gestore_torna {img : Immagine} {dopoInt : Word} {l : Link} {i r : Macchina}
    (hi : Gestore m fx j l i) (hr : Convenzione i r) (hcpl : m.cpl ≠ 0)
    (he : r.kernel.esecuzione = some p) (hmask : (r.kernel.des (some p)).sigMask = 0)
    (hT : img.Caricata (r.ret.stub 13 dopoInt).kernel.mem)
    (hP : (r.ret.stub 13 dopoInt).PilaLibera img 28) (hki : img.ki .signalrespin ≠ 0) :
    ∃ f, Macchina.Chiama img .signalrespin (r.ret.stub 13 dopoInt) f ∧
      f.addEsp4.ret.reg = { r.reg with
        eip := m.reg.eip, esp := m.reg.esp
        eflags := addEflags r.reg.eflags (m.reg.esp - 8) 4 } := by
  have hesp : r.reg.esp = m.reg.esp - 12 := by rw [hr.esp, hi.reg]
  have hstub : (r.ret.stub 13 dopoInt).reg = { r.reg with eip := dopoInt, esp := m.reg.esp - 12 } := by
    have hsub : r.reg.esp + 4 - 4 = m.reg.esp - 12 := by
      rw [← hesp]
      bv_omega
    rw [← hsub]
    rfl
  have hcpl' : (r.ret.stub 13 dopoInt).cpl ≠ 0 := by
    have hcs : r.reg.cs = m.reg.cs := by rw [hr.cs, hi.reg]
    show r.reg.cs &&& 3 ≠ 0
    rw [hcs]
    exact hcpl
  obtain ⟨f, hf, hreg, hmem⟩ := respin_torna hT hP (Mem.read32_write32 _ _ _) hki hcpl' he hmask
  refine ⟨f, hf, ?_⟩
  rw [hstub] at hreg
  -- the word of the interrupted `EIP` is above what the stub and the kernel write
  have heip : f.kernel.mem.read32 (m.reg.esp - 4) = m.reg.eip := by
    have h8 : m.reg.esp - 4 = (r.ret.stub 13 dopoInt).reg.esp + 8 := by
      rw [hstub]
      bv_omega
    have hpush : (r.ret.stub 13 dopoInt).kernel.mem = r.kernel.mem.write32 (m.reg.esp - 12) 13 := by
      have hsub : r.reg.esp + 4 - 4 = m.reg.esp - 12 := by
        rw [← hesp]
        bv_omega
      rw [← hsub]
      rfl
    have hap : Mem.Apart (m.reg.esp - 12) (m.reg.esp - 4) := by
      unfold Mem.Apart
      constructor <;> bv_omega
    rw [hmem.read32 fun b hb hb' => ?_, hpush, Mem.read32_write32_apart hap]
    · have hsopra := hr.sopra
      have h4 : m.reg.esp - 12 + 8 = m.reg.esp - 4 := by bv_omega
      rw [hesp, hi.reg] at hsopra
      rw [h4] at hsopra
      exact hsopra.trans hi.eip
    · rw [h8] at hb
      rcases hb' with hb' | hb'
      · exact hP.chiamante b (hb.of_offset (by decide)) hb'
      · have h4 : (r.ret.stub 13 dopoInt).reg.esp + 8 =
            (r.ret.stub 13 dopoInt).reg.esp + 4 + 4 := by bv_omega
        rw [h4] at hb
        exact hb'.not_offset (by decide) (by decide) hb
  have hespf : f.addEsp4.reg.esp = m.reg.esp - 4 := by
    show f.reg.esp + 4 = _
    rw [hreg]
    show m.reg.esp - 12 + 4 + 4 = _
    bv_omega
  have hret : f.addEsp4.ret.reg = { f.reg with
      eip := f.kernel.mem.read32 f.addEsp4.reg.esp
      esp := f.addEsp4.reg.esp + 4
      eflags := addEflags f.reg.eflags f.reg.esp 4 } := rfl
  have h12 : m.reg.esp - 4 + 4 = m.reg.esp := by bv_omega
  have h8' : m.reg.esp - 12 + 4 = m.reg.esp - 8 := by bv_omega
  rw [hret, hespf, heip, h12, hreg]
  simp only [h8']

end Gestore

/-- The interrupted computation gets its registers back if and only if the handler leaves `EAX`,
`ECX` and `EDX` alone, and the flags that it leaves and those of `add esp, 4` make up the
interrupted `EFLAGS`. -/
theorem registri_conservati {img : Immagine} {p : Pid} {j : Fin SIGCOUNT} {fx dopoInt : Word}
    {m d r : Macchina} {k : Kernel} (hcpl : m.cpl ≠ 0) (hm : m.kernel.esecuzione = some p)
    (hg : m.kernel.Gestito p j fx) (hsep : ∀ b, Mem.Within (m.reg.esp - 12) 12 b → ¬ m.Zona b)
    (hk : cdriverT m.interruzione.salvaStato.kernel = .ok k) (hd : d.Ripresa p m k)
    (hr : Convenzione d.caricaStato r) (he : r.kernel.esecuzione = some p)
    (hmask : (r.kernel.des (some p)).sigMask = 0)
    (hT : img.Caricata (r.ret.stub 13 dopoInt).kernel.mem)
    (hP : (r.ret.stub 13 dopoInt).PilaLibera img 28) (hki : img.ki .signalrespin ≠ 0) :
    d.caricaStato.reg.eip = fx ∧ d.caricaStato.argomento 0 = BitVec.ofNat 32 j.val ∧
      r.ret.reg.eip = m.kernel.link.signalrespin ∧
      ∃ f, Macchina.Chiama img .signalrespin (r.ret.stub 13 dopoInt) f ∧
        f.addEsp4.ret.reg.eip = m.reg.eip ∧ f.addEsp4.ret.reg.esp = m.reg.esp ∧
        (Riprende m f.addEsp4.ret ↔
          r.reg.eax = m.reg.eax ∧ r.reg.ecx = m.reg.ecx ∧ r.reg.edx = m.reg.edx ∧
            addEflags r.reg.eflags (m.reg.esp - 8) 4 = m.reg.eflags) := by
  have hi := gestore_entra hcpl hm hg hsep hk hd
  obtain ⟨f, hf, hreg⟩ := gestore_torna hi hr hcpl he hmask hT hP hki
  have hebx : r.reg.ebx = m.reg.ebx := by rw [hr.ebx, hi.reg]
  have hesi : r.reg.esi = m.reg.esi := by rw [hr.esi, hi.reg]
  have hedi : r.reg.edi = m.reg.edi := by rw [hr.edi, hi.reg]
  have hebp : r.reg.ebp = m.reg.ebp := by rw [hr.ebp, hi.reg]
  refine ⟨by rw [hi.reg], hi.parametro, hr.cima.trans hi.ritorno, f, hf, by rw [hreg],
    by rw [hreg], ?_⟩
  constructor
  · intro h
    have hax := h.eax
    have hcx := h.ecx
    have hdx := h.edx
    have hfl := h.eflags
    rw [hreg] at hax hcx hdx hfl
    exact ⟨hax, hcx, hdx, hfl⟩
  · rintro ⟨hax, hcx, hdx, hfl⟩
    constructor
    · rw [hreg]
    · rwa [hreg]
    · rwa [hreg]
    · rwa [hreg]
    · rwa [hreg]
    · rwa [hreg]
    · rwa [hreg]
    · rwa [hreg]
    · rwa [hreg]

/-! A process with 7 in `EAX` and a signal pending is interrupted; its handler returns at once,
with some value in `EAX`. -/

def interrotto : Macchina where
  reg := { (utente []).reg with eax := 7, esp := 0x4000C }
  kernel := (utente []).kernel.aggiorna (some 1) fun d =>
    { d with
      stk := pila 0x21000
      sigMask := 0x400
      sigHandlers := Function.update d.sigHandlers 10 0x60000 }

/-- `cdriver_t` has left the CPU to the process. -/
theorem ripresa_subito {m : Macchina} {p : Pid} {k : Kernel} (h : k.esecuzione = some p) :
    (m.interruzione.salvaStato.conKernel k).Ripresa p m k :=
  ⟨h, rfl, fun _ _ => rfl⟩

/-- The state `i` at the entry of the handler, with another word in `EAX` and the tables in
memory. -/
def Macchina.conEax (i : Macchina) (eax : Word) : Macchina where
  reg := { i.reg with eax }
  kernel := { i.kernel with mem := immagine.sopra i.kernel.mem }

theorem conEax_parti (i : Macchina) (eax : Word) : (i.conEax eax).reg.ecx = i.reg.ecx ∧
    (i.conEax eax).reg.edx = i.reg.edx ∧ (i.conEax eax).reg.eflags = i.reg.eflags ∧
      (i.conEax eax).kernel.esecuzione = i.kernel.esecuzione ∧
        (i.conEax eax).kernel.des = i.kernel.des := ⟨rfl, rfl, rfl, rfl, rfl⟩

theorem conEax_convenzione {i : Macchina} (hesp : i.reg.esp = 0x40000) (eax : Word) :
    Convenzione i (i.conEax eax) := by
  have hread : ∀ k : Word, k.toNat ≤ 8 → (immagine.sopra i.kernel.mem).read32 (0x40000 + k) =
      i.kernel.mem.read32 (0x40000 + k) := by
    intro k hk
    refine Mem.read32_within fun b hb => sopra_fuori fun hb' => ?_
    rw [tabelle_length] at hb'
    have hb' : Mem.Within 0x32000 936 b := hb'
    unfold Mem.Within at *
    bv_omega
  refine ⟨rfl, rfl, rfl, rfl, rfl, rfl, ?_, ?_⟩
  · show (immagine.sopra i.kernel.mem).read32 i.reg.esp = i.kernel.mem.read32 i.reg.esp
    rw [hesp]
    exact hread 0 (by decide)
  · show (immagine.sopra i.kernel.mem).read32 (i.reg.esp + 8) = i.kernel.mem.read32 (i.reg.esp + 8)
    rw [hesp]
    exact hread 8 (by decide)

theorem conEax_stub {i : Macchina} (hesp : i.reg.esp = 0x40000)
    (hcpl : i.cpl = 3) (htss : i.kernel.tssEsp0 = 0x21000) (eax : Word) :
    immagine.Caricata ((i.conEax eax).ret.stub 13 0x50002).kernel.mem ∧
      ((i.conEax eax).ret.stub 13 0x50002).PilaLibera immagine 28 := by
  have hreg : ((i.conEax eax).ret.stub 13 0x50002).reg.esp = 0x40000 := by
    show i.reg.esp + 4 - 4 = _
    rw [hesp]
    rfl
  have hmem : ((i.conEax eax).ret.stub 13 0x50002).kernel.mem =
      (immagine.sopra i.kernel.mem).write32 0x40000 13 := by
    show (immagine.sopra i.kernel.mem).write32 (i.reg.esp + 4 - 4) _ = _
    rw [hesp]
    rfl
  have hbase : ((i.conEax eax).ret.stub 13 0x50002).base = 0x20FEC := by
    have hcpl' : ((i.conEax eax).ret.stub 13 0x50002).cpl = 3 := hcpl
    have htss' : ((i.conEax eax).ret.stub 13 0x50002).kernel.tssEsp0 = 0x21000 := htss
    rw [Macchina.base, hcpl', htss', if_neg (by decide)]
    rfl
  refine ⟨?_, utente_libera hbase hcpl (Or.inl hreg)⟩
  rw [hmem]
  refine (sopra_caricata immagine i.kernel.mem).congr
    ((Mem.ChangesAt.refl _).write32 fun b hb => hb) fun b hb hb' => ?_
  rw [tabelle_length] at hb
  have hb : Mem.Within 0x32000 936 b := hb
  unfold Mem.Within at *
  bv_omega

/-- What the tick makes of the kernel. -/
def dopoTick : Kernel := dopo (cdriverT interrotto.interruzione.salvaStato.kernel)

/-- At the entry of the handler. -/
def alGestore : Macchina := (interrotto.interruzione.salvaStato.conKernel dopoTick).caricaStato

theorem interrotto_gestito : interrotto.kernel.Gestito 1 10 0x60000 :=
  ⟨by decide, by decide, by decide⟩

theorem interrotto_libero (b : Word) (hb : Mem.Within (interrotto.reg.esp - 12) 12 b) :
    ¬ interrotto.Zona b := by
  intro hz
  have hb : Mem.Within 0x40000 12 b := hb
  have hbase : interrotto.base = 0x20FEC := by decide
  have hcpl : interrotto.cpl = 3 := by decide
  unfold Macchina.Zona at hz
  rw [hbase, hcpl, if_neg (by decide)] at hz
  unfold Mem.Within at *
  bv_omega

/-- The state in which the handler is entered. -/
theorem alGestore_fatti : riesce (cdriverT interrotto.interruzione.salvaStato.kernel) = true ∧
    dopoTick.esecuzione = some 1 ∧ alGestore.kernel.esecuzione = some 1 ∧
    (alGestore.kernel.des (some 1)).sigMask = 0 ∧ alGestore.kernel.tssEsp0 = 0x21000 ∧
    alGestore.cpl = 3 ∧ alGestore.reg.esp = 0x40000 ∧ alGestore.reg.ecx = interrotto.reg.ecx ∧
    alGestore.reg.edx = interrotto.reg.edx ∧
    addEflags alGestore.reg.eflags (interrotto.reg.esp - 8) 4 = interrotto.reg.eflags := by
  refine ⟨?_, ?_, ?_, ?_, ?_, ?_, ?_, ?_, ?_, ?_⟩
  all_goals decide +kernel

/-- The handler leaves `EAX` alone. -/
theorem registri_conservati_corsa : ∃ f,
    Macchina.Chiama immagine .signalrespin ((alGestore.conEax 7).ret.stub 13 0x50002) f ∧
      Riprende interrotto f.addEsp4.ret := by
  obtain ⟨htick, hk, he, hmask, htss, hcpl, hesp, hecx, hedx, hfl⟩ := alGestore_fatti
  obtain ⟨hcx, hdx, heflags, hesec, hdes⟩ := conEax_parti alGestore 7
  rw [← hesec] at he
  rw [← hdes] at hmask
  obtain ⟨hT, hP⟩ := conEax_stub (i := alGestore) hesp hcpl htss 7
  obtain ⟨-, -, -, f, hf, -, -, hiff⟩ := registri_conservati (j := 10) (p := 1)
    (k := dopoTick) (m := interrotto) (by decide) rfl interrotto_gestito interrotto_libero
    (dopo_eq htick) (ripresa_subito hk) (conEax_convenzione hesp 7) he hmask hT hP (by decide)
  rw [hcx, hdx, heflags] at hiff
  exact ⟨f, hf, hiff.mpr ⟨rfl, hecx, hedx, hfl⟩⟩

/-- The handler returns 0: the interrupted process goes on with 0 in `EAX`. -/
theorem eax_perduto : interrotto.kernel.Gestito 1 10 0x60000 ∧
    cdriverT interrotto.interruzione.salvaStato.kernel = .ok dopoTick ∧
    Convenzione alGestore (alGestore.conEax 0) ∧ ∃ f,
      Macchina.Chiama immagine .signalrespin ((alGestore.conEax 0).ret.stub 13 0x50002) f ∧
        f.addEsp4.ret.reg.eip = interrotto.reg.eip ∧ interrotto.reg.eax = 7 ∧
        f.addEsp4.ret.reg.eax = 0 ∧ ¬ Riprende interrotto f.addEsp4.ret := by
  obtain ⟨hriesce, hk, he, hmask, htss, hcpl, hesp, -⟩ := alGestore_fatti
  obtain ⟨-, -, -, hesec, hdes⟩ := conEax_parti alGestore 0
  rw [← hesec] at he
  rw [← hdes] at hmask
  have hcpl' : interrotto.cpl ≠ 0 := by decide
  have htick : cdriverT interrotto.interruzione.salvaStato.kernel = .ok dopoTick := dopo_eq hriesce
  obtain ⟨hT, hP⟩ := conEax_stub (i := alGestore) hesp hcpl htss 0
  have hi : Gestore interrotto 0x60000 10 interrotto.kernel.link alGestore :=
    gestore_entra (p := 1) hcpl' rfl interrotto_gestito interrotto_libero htick (ripresa_subito hk)
  have hconv := conEax_convenzione hesp 0
  obtain ⟨f, hf, hreg⟩ := gestore_torna (p := 1) hi hconv hcpl' he hmask hT hP (by decide)
  have hzero : f.addEsp4.ret.reg.eax = 0 := by
    rw [hreg]
    rfl
  refine ⟨interrotto_gestito, htick, hconv, f, hf, by rw [hreg], rfl, hzero, fun h => ?_⟩
  have heax := hzero.symm.trans h.eax
  exact absurd heax (by decide)

end Pitos
