import Pitos.Machine.Isolation

/-!
# Handlers inside handlers

While a handler of `p` runs, or the stub to which it returns, another signal may be delivered. The
deliveries that have not been returned from form a list, the innermost first; for each it is
recorded what was interrupted, and how far its handler has come (`Fase`). `Svolge` is a step of the
machine with this record beside it, and `Annidate` what the user stack holds for all of them.

The user stack of `p` is the piece of `n` bytes from `lo` up.
-/

namespace Pitos

open Lib

/-! ## Steps -/

/-- The instructions of the stub `__signalrespin` behind its `push dword 13`. -/
structure Stub where
  alInt : Word
  dopoInt : Word
  alRet : Word

/-- Where a handler is: in its own code, before the `push` of the stub, before the `int`, before
the `add esp, 4`, before the last `ret`. -/
inductive Fase
  | gestore | entrato | spinto | servito | scaricato
  deriving DecidableEq

/-- The bytes of the user stack from `u` up. -/
def Sopra (lo : Word) (n : Nat) (u b : Word) : Prop :=
  (u - lo).toNat ≤ (b - lo).toNat ∧ Mem.Within lo n b

/-- The user stack, and the bytes of `K`, where nobody is to write at all. -/
def Custoditi (K : Word → Prop) (lo : Word) (n : Nat) (b : Word) : Prop := Mem.Within lo n b ∨ K b

/-- The user stack and the bytes of `K` are apart from each other, and both from the system stack
with the frame at `e`. -/
structure PileApparte (e : Word) (K : Word → Prop) (lo : Word) (n : Nat) : Prop where
  discosta : Discosto e (Custoditi K lo n)
  nucleo : ∀ b, Mem.Within lo n b → ¬ K b

/-- The words of a signal for code with the stack pointer `u` are on the user stack. -/
def Capiente (lo : Word) (n : Nat) (u : Word) : Prop :=
  12 ≤ (u - lo).toNat ∧ (u - lo).toNat ≤ n

abbrev Annidamento := List (Attivazione × Fase)

/-- New deliveries. -/
def nuove (cs : List Attivazione) : Annidamento := cs.map fun a => (a, .gestore)

/-- A step of the machine. Handlers return by `ret` and do not write above their argument, nor
is their stack pointer ever there; the code under the outermost signal does not run. -/
inductive Svolge (img : Immagine) (st : Stub) (p : Pid) (e : Word) (K : Word → Prop) (lo : Word)
    (n : Nat) : Macchina × Annidamento → Macchina × Annidamento → Prop
  /-- Somebody else's. -/
  | altrui {m m' : Macchina} {G : Annidamento} {cs : List Attivazione}
      (h : m.Altrui img p e (Custoditi K lo n) m' cs) (hposto : ∀ a ∈ cs, Capiente lo n a.esp) :
      Svolge img st p e K lo n (m, G) (m', nuove cs ++ G)
  /-- An interrupt of `p`, in whatever code. -/
  | interrotto {m m' : Macchina} {G : Annidamento} {cs : List Attivazione}
      (he : m.kernel.esecuzione = some p)
      (h : m.Passa img p e (Custoditi K lo n) (Custoditi K lo n) m' cs)
      (hposto : ∀ a ∈ cs, Capiente lo n a.esp) : Svolge img st p e K lo n (m, G) (m', nuove cs ++ G)
  /-- Instructions of a handler. -/
  | programma {m : Macchina} {G : Annidamento} {a : Attivazione} (he : m.kernel.esecuzione = some p)
      {reg : Registri} (hcs : reg.cs = m.reg.cs)
      (hesp : (reg.esp - lo).toNat + 4 ≤ (a.esp - lo).toNat) {x : Mem}
      (hx : ∀ b, Sopra lo n (a.esp - 4) b ∨ K b → x b = m.kernel.mem b) :
      Svolge img st p e K lo n (m, (a, .gestore) :: G)
        (⟨reg, { m.kernel with mem := x }⟩, (a, .gestore) :: G)
  /-- A system call of a handler. -/
  | chiamata {m m' : Macchina} {G : Annidamento} {a : Attivazione} {cs : List Attivazione}
      (he : m.kernel.esecuzione = some p)
      (h : m.Passa img p e (Custoditi K lo n) (fun b => Sopra lo n (a.esp - 4) b ∨ K b) m' cs)
      (hposto : ∀ a ∈ cs, Capiente lo n a.esp) :
      Svolge img st p e K lo n (m, (a, .gestore) :: G) (m', nuove cs ++ (a, .gestore) :: G)
  /-- `ret` of a handler, to the stub. -/
  | ritorna {m : Macchina} {G : Annidamento} {a : Attivazione} (he : m.kernel.esecuzione = some p)
      (hesp : m.reg.esp = a.esp - 12) (hcima : m.cima = m.kernel.link.signalrespin) :
      Svolge img st p e K lo n (m, (a, .gestore) :: G) (m.ret, (a, .entrato) :: G)
  /-- `push dword 13`. -/
  | spinge {m : Macchina} {G : Annidamento} {a : Attivazione} (he : m.kernel.esecuzione = some p)
      (heip : m.reg.eip = m.kernel.link.signalrespin) :
      Svolge img st p e K lo n (m, (a, .entrato) :: G) (m.stub 13 st.alInt, (a, .spinto) :: G)
  /-- `int 0x30`. -/
  | serve {m m₁ m' : Macchina} {G : Annidamento} {a : Attivazione} {cs : List Attivazione}
      (he : m.kernel.esecuzione = some p) (heip : m.reg.eip = st.alInt)
      (hm₁ : m₁ = { m with reg := { m.reg with eip := st.dopoInt } })
      (hT : img.Caricata m.kernel.mem) (hki : img.ki .signalrespin ≠ 0)
      (hfuori : ∀ b, Mem.Within img.syscallTable (4 * img.tabelle.length) b → ¬ m₁.Zona b)
      (h : Macchina.Chiama img .signalrespin m₁ m')
      (hc : (kiSignalrespin (syscalle img m₁.interruzione).2.kernel).Consegna p cs)
      (hposto : ∀ a ∈ cs, Capiente lo n a.esp) :
      Svolge img st p e K lo n (m, (a, .spinto) :: G) (m', nuove cs ++ (a, .servito) :: G)
  /-- `add esp, 4`. -/
  | somma {m : Macchina} {G : Annidamento} {a : Attivazione} (he : m.kernel.esecuzione = some p)
      (heip : m.reg.eip = st.dopoInt) :
      Svolge img st p e K lo n (m, (a, .servito) :: G)
        ({ m.addEsp4 with reg := { m.addEsp4.reg with eip := st.alRet } }, (a, .scaricato) :: G)
  /-- The last `ret`. -/
  | torna {m : Macchina} {G : Annidamento} {a : Attivazione} (he : m.kernel.esecuzione = some p)
      (heip : m.reg.eip = st.alRet) : Svolge img st p e K lo n (m, (a, .scaricato) :: G) (m.ret, G)

/-! ## What the user stack holds -/

/-- Where the stack pointer is, and what it points to. -/
def Fase.Posto (lo : Word) (a : Attivazione) (x : Mem) (esp : Word) : Fase → Prop
  | .gestore => (esp - lo).toNat + 4 ≤ (a.esp - lo).toNat
  | .entrato => esp = a.esp - 8
  | .spinto => esp = a.esp - 12 ∧ x.read32 esp = 13
  | .servito => esp = a.esp - 8
  | .scaricato => esp = a.esp - 4

/-- The memory `x`, with the registers `EIP` and `ESP`, in the middle of the deliveries `G`. What
an interrupted code finds is said of the memory recorded at the delivery, recursively. At the
bottom is the code with `eip₀` and `esp₀`, for which the bytes of `V` are kept. -/
def Annidate (lo : Word) (n : Nat) (eip₀ esp₀ : Word) (V : Word → Prop) (x₀ : Mem) :
    Annidamento → Word → Word → Mem → Prop
  | [], eip, esp, x => eip = eip₀ ∧ esp = esp₀ ∧ ∀ b, V b → x b = x₀ b
  | (a, f) :: G, _, esp, x =>
    Capiente lo n a.esp ∧ x.read32 (a.esp - 4) = a.eip ∧
      (∀ b, Sopra lo n a.esp b → x b = a.mem b) ∧ f.Posto lo a x esp ∧
      Annidate lo n eip₀ esp₀ V x₀ G a.eip a.esp a.mem

/-- `W` holds the bytes that `Annidate` is about. -/
def Copre (lo : Word) (n : Nat) (V W : Word → Prop) : Annidamento → Prop
  | [] => ∀ b, V b → W b
  | (a, f) :: _ => (∀ b, Sopra lo n (a.esp - 4) b → W b) ∧
    (f = .spinto → ∀ b, Sopra lo n (a.esp - 12) b → W b)

section Pila

variable {lo u b : Word} {n : Nat}

/-- The words of the signal, by their places on the stack. -/
theorem Capiente.posto (h : Capiente lo n u) (hb : Mem.Within (u - 12) 12 b) :
    Mem.Within lo n b ∧ (b - lo).toNat < (u - lo).toNat := by
  obtain ⟨h12, hn⟩ := h
  unfold Mem.Within at *
  constructor <;> bv_omega

theorem Sopra.within (h : Sopra lo n u b) : Mem.Within lo n b := h.2

theorem Sopra.mono {v : Word} (h : Sopra lo n u b) (hv : (v - lo).toNat ≤ (u - lo).toNat) :
    Sopra lo n v b := ⟨hv.trans h.1, h.2⟩

/-- The bytes of a word on the stack. -/
theorem sopra_parola (h : Capiente lo n u) {k : Word} (hk : 4 ≤ k.toNat) (hk' : k.toNat ≤ 12)
    (hb : Mem.Within (u - k) 4 b) : Sopra lo n (u - k) b := by
  obtain ⟨h12, hn⟩ := h
  unfold Sopra Mem.Within at *
  constructor <;> bv_omega

/-- The lowest word of a signal is below the address to which its handler is to return. -/
theorem sopra_gestore (h : Capiente lo n u) (hb : Sopra lo n (u - 4) b) :
    ¬ Mem.Within (u - 12) 4 b := by
  intro hb'
  obtain ⟨h12, -⟩ := h
  obtain ⟨hb4, -⟩ := hb
  unfold Mem.Within at hb'
  bv_omega

/-- Higher up than some place on the stack. -/
theorem Capiente.sotto (h : Capiente lo n u) {k : Word} (hk : k.toNat ≤ 12) :
    (u - k - lo).toNat = (u - lo).toNat - k.toNat := by
  obtain ⟨h12, -⟩ := h
  bv_omega

end Pila

namespace Annidate

variable {lo eip₀ esp₀ eip esp : Word} {n : Nat} {V W : Word → Prop} {x₀ x y : Mem}
  {G : Annidamento} {a : Attivazione} {f : Fase}

/-- Other bytes of the memory do not count. -/
theorem congr (h : Annidate lo n eip₀ esp₀ V x₀ G eip esp x) (hW : Copre lo n V W G)
    (hy : ∀ b, W b → y b = x b) : Annidate lo n eip₀ esp₀ V x₀ G eip esp y := by
  cases G with
  | nil =>
    obtain ⟨heip, hesp, hx⟩ := h
    exact ⟨heip, hesp, fun b hb => (hy b (hW b hb)).trans (hx b hb)⟩
  | cons g G =>
    obtain ⟨a, f⟩ := g
    obtain ⟨hcap, hword, hsopra, hposto, hrest⟩ := h
    obtain ⟨hW, hspinto⟩ := hW
    refine ⟨hcap, ?_, ?_, ?_, hrest⟩
    · rw [← hword]
      exact Mem.read32_within fun b hb =>
        hy b (hW b (sopra_parola hcap (by decide) (by decide) hb))
    · intro b hb
      refine (hy b (hW b (hb.mono ?_))).trans (hsopra b hb)
      rw [hcap.sotto (by decide)]
      exact Nat.sub_le _ _
    · cases f with
      | spinto =>
        obtain ⟨hesp, h13⟩ := hposto
        refine ⟨hesp, ?_⟩
        rw [← h13]
        refine Mem.read32_within fun b hb => hy b (hspinto rfl b ?_)
        rw [hesp] at hb
        exact sopra_parola hcap (by decide) (by decide) hb
      | _ => exact hposto

/-- `EIP` counts at the bottom only. -/
theorem conEip (h : Annidate lo n eip₀ esp₀ V x₀ ((a, f) :: G) eip esp x) (eip' : Word) :
    Annidate lo n eip₀ esp₀ V x₀ ((a, f) :: G) eip' esp x := h

/-- The whole stack is enough. -/
theorem copre_custoditi {K : Word → Prop} (hV : ∀ b, V b → Custoditi K lo n b) (G : Annidamento) :
    Copre lo n V (Custoditi K lo n) G := by
  cases G with
  | nil => exact hV
  | cons g G => exact ⟨fun b hb => Or.inl hb.within, fun _ b hb => Or.inl hb.within⟩

/-- What is above the stack pointer is enough. -/
theorem copre_sopra (h : Annidate lo n eip₀ esp₀ V x₀ G eip esp x)
    (hV : ∀ b, V b → Sopra lo n esp₀ b) : Copre lo n V (Sopra lo n esp) G := by
  cases G with
  | nil =>
    obtain ⟨-, hesp, -⟩ := h
    rw [hesp]
    exact hV
  | cons g G =>
    obtain ⟨a, f⟩ := g
    obtain ⟨hcap, -, -, hposto, -⟩ := h
    have hle : (esp - lo).toNat ≤ (a.esp - 4 - lo).toNat := by
      rw [hcap.sotto (by decide)]
      have h12 := hcap.1
      have h4 : (4 : Word).toNat = 4 := rfl
      cases f with
      | gestore =>
        have hg : (esp - lo).toNat + 4 ≤ (a.esp - lo).toNat := hposto
        omega
      | entrato =>
        have he : esp = a.esp - 8 := hposto
        have h8 : (8 : Word).toNat = 8 := rfl
        rw [he, hcap.sotto (by decide)]
        omega
      | spinto =>
        have he : esp = a.esp - 12 := hposto.1
        have h12' : (12 : Word).toNat = 12 := rfl
        rw [he, hcap.sotto (by decide)]
        omega
      | servito =>
        have he : esp = a.esp - 8 := hposto
        have h8 : (8 : Word).toNat = 8 := rfl
        rw [he, hcap.sotto (by decide)]
        omega
      | scaricato =>
        have he : esp = a.esp - 4 := hposto
        rw [he, hcap.sotto (by decide)]
    refine ⟨fun b hb => hb.mono hle, ?_⟩
    intro hf b hb
    subst hf
    have he : esp = a.esp - 12 := hposto.1
    rwa [he]

/-- Deliveries, none or one, on top of what is there. -/
theorem prosegue {K : Word → Prop} {r r' : Registri} {cs : List Attivazione}
    (h : Annidate lo n eip₀ esp₀ V x₀ G r.eip r.esp x)
    (hp : Prosegue W (Custoditi K lo n) r x cs r' y) (hW : Copre lo n V W G)
    (hposto : ∀ a ∈ cs, Capiente lo n a.esp) :
    Annidate lo n eip₀ esp₀ V x₀ (nuove cs ++ G) r'.eip r'.esp y := by
  cases hp with
  | piano hy => exact h.congr hW hy
  | gestore heip hesp hmem hword hy =>
    rename_i a fx
    have hcap : Capiente lo n r.esp := hesp ▸ hposto a (List.mem_singleton.mpr rfl)
    have hrest := h.congr hW hmem
    rw [← heip, ← hesp] at hrest
    refine ⟨hesp ▸ hcap, ?_, ?_, ?_, hrest⟩
    · rw [hesp, heip, hword]
    · intro b hb
      rw [hesp] at hb
      apply hy b (Or.inl hb.within)
      intro hb'
      have := (hcap.posto hb').2
      exact absurd hb.1 (by omega)
    · show (r.esp - 12 - lo).toNat + 4 ≤ (a.esp - lo).toNat
      have h12 := hcap.1
      have h12' : (12 : Word).toNat = 12 := rfl
      rw [hesp, hcap.sotto (by decide)]
      omega

end Annidate

/-! ## One step -/

section Passo

variable {img : Immagine} {st : Stub} {p : Pid} {e lo eip₀ esp₀ : Word} {n : Nat}
  {K V : Word → Prop} {x₀ : Mem} {m m₁ m' : Macchina} {G G' : Annidamento} {a : Attivazione}
  {cs : List Attivazione} {r : Registri}

theorem capienti_posto (K : Word → Prop) (h : ∀ a ∈ cs, Capiente lo n a.esp) :
    ∀ a ∈ cs, ∀ b, Mem.Within (a.esp - 12) 12 b → Custoditi K lo n b :=
  fun a ha _ hb => Or.inl ((h a ha).posto hb).1

/-- The process has executed some instructions. -/
theorem Macchina.Attende.esegue {U : Word → Prop} (h : m.Attende p r e U)
    (he : m.kernel.esecuzione = some p) (hcs : m'.reg.cs = m.reg.cs)
    (hdes : m'.kernel.des = m.kernel.des) (hesec : m'.kernel.esecuzione = m.kernel.esecuzione)
    (htss : m'.kernel.tssEsp0 = m.kernel.tssEsp0) : m'.Attende p m'.reg e U := by
  refine ⟨fun _ => rfl, fun hne => absurd (hesec.trans he) hne, ?_, ?_,
    h.lontani.of_intatti (.of_des hdes), fun q hq => ?_⟩
  · rw [hcs, h.reg he]
    exact h.livello
  · rw [hdes]
    exact h.stk
  · rw [htss, hdes]
    exact h.tss q (hesec.symm.trans hq)

/-- The `push dword 13` of the stub, in the place from which the handler has returned. -/
theorem spinge_annidate {alInt : Word}
    (hA : Annidate lo n eip₀ esp₀ V x₀ ((a, .entrato) :: G) m.reg.eip m.reg.esp m.kernel.mem) :
    Annidate lo n eip₀ esp₀ V x₀ ((a, .spinto) :: G) (m.stub 13 alInt).reg.eip
      (m.stub 13 alInt).reg.esp (m.stub 13 alInt).kernel.mem := by
  obtain ⟨hcap, hword, hsopra, hposto, hrest⟩ := hA
  have hr : m.reg.esp - 4 = a.esp - 12 := by
    rw [show m.reg.esp = a.esp - 8 from hposto]
    bv_omega
  have hmem : (m.stub 13 alInt).kernel.mem = m.kernel.mem.write32 (m.reg.esp - 4) 13 := rfl
  have hesp : (m.stub 13 alInt).reg.esp = m.reg.esp - 4 := rfl
  rw [hmem, hesp, hr]
  have hpush : ∀ b, Sopra lo n (a.esp - 4) b →
      m.kernel.mem.write32 (a.esp - 12) 13 b = m.kernel.mem b := by
    intro b hb
    refine (Mem.ChangesAt.refl m.kernel.mem).write32 (P := Mem.Within (a.esp - 12) 4)
      (fun c hc => hc) b ?_
    exact sopra_gestore hcap hb
  have hA' : Annidate lo n eip₀ esp₀ V x₀ ((a, .entrato) :: G) a.eip (a.esp - 8) m.kernel.mem :=
    ⟨hcap, hword, hsopra, rfl, hrest⟩
  obtain ⟨-, hword', hsopra', -, -⟩ :=
    hA'.congr ⟨fun _ hb => hb, fun hf => absurd hf (by decide)⟩ hpush
  exact ⟨hcap, hword', hsopra', ⟨rfl, Mem.read32_write32 _ _ _⟩, hrest⟩

/-- The `int` of the stub: `__signalrespin` moves the stack pointer past the argument of the
handler, and other signals may be delivered on the way out. -/
theorem serve_annidate (hm : m.Attende p m.reg e (Custoditi K lo n))
    (he : m.kernel.esecuzione = some p) (hU : Discosto e (Custoditi K lo n))
    (hA : Annidate lo n eip₀ esp₀ V x₀ ((a, .spinto) :: G) m.reg.eip m.reg.esp m.kernel.mem)
    (hV : ∀ b, V b → Custoditi K lo n b) (hT : img.Caricata m.kernel.mem)
    (hki : img.ki .signalrespin ≠ 0)
    (hfuori : ∀ b, Mem.Within img.syscallTable (4 * img.tabelle.length) b → ¬ m.Zona b)
    (h : Macchina.Chiama img .signalrespin m m')
    (hc : (kiSignalrespin (syscalle img m.interruzione).2.kernel).Consegna p cs)
    (hposto : ∀ a ∈ cs, Capiente lo n a.esp) :
    ∃ r', m'.Attende p r' e (Custoditi K lo n) ∧
      Annidate lo n eip₀ esp₀ V x₀ (nuove cs ++ (a, .servito) :: G) r'.eip r'.esp
        m'.kernel.mem ∧ r'.eax = m.reg.eax := by
  obtain ⟨hcap, hword, hsopra, ⟨hesp, h13⟩, hrest⟩ := hA
  have h12 := hcap.1
  have hsotto : ∀ b, Mem.Within (m.reg.esp) 12 b → Custoditi K lo n b := fun b hb => by
    rw [hesp] at hb
    exact Or.inl (hcap.posto hb).1
  have hcpl : m.cpl ≠ 0 := hm.livello
  have hpila : m.PilaLibera img 4 := by
    refine ⟨hfuori, fun b hb hz => hU.attorno (hsotto b (hb.mono (by decide))) ?_⟩
    have hz' := Macchina.zona_attorno hz
    rwa [hm.base he] at hz'
  have hnum : m.Numero img ⟨.signalrespin, 0, 13⟩ :=
    .di_cima (by decide) hT hpila le_rfl h13 hki
  obtain ⟨-, hd⟩ := syscalle_dentro hnum
  obtain ⟨hcus, hmem⟩ := hm.entra he hd hU fun h0 => absurd h0 hcpl
  have hesec : (syscalle img m.interruzione).2.kernel.esecuzione = some p := hd.esecuzione.trans he
  have huscita : ((syscalle img m.interruzione).2.conKernel
      (kiSignalrespin (syscalle img m.interruzione).2.kernel)).signalsCheck = .ok m' := h.uscita
  generalize (syscalle img m.interruzione).2 = c at hcus hmem hesec huscita hc
  have h4 : m.reg.esp + 4 = a.esp - 8 := by
    rw [hesp]
    bv_omega
  have hfuori4 : Fuori (m.reg.esp + 4) 4 e := fun b hb =>
    hU.telaio (hsotto b (hb.of_offset (by decide)))
  obtain ⟨hs, hch⟩ := kiSignalrespin_sospeso hcus.sospeso hesec hm.livello hfuori4
  have ht : (kiSignalrespin c.kernel).Custodisce p { m.reg with esp := m.reg.esp + 4 } e
      (Custoditi K lo n) :=
    ⟨hs, hm.livello, hcus.stk, hcus.lontani.of_intatti (.of_des rfl)⟩
  have hsegnali : (kiSignalrespin c.kernel).SegnaliFuori p (Riservati e (Custoditi K lo n)) :=
    fun q j fx hq hq' => absurd (Option.some.inj (hq'.symm.trans hesec)) hq
  obtain ⟨r', hatt, hp⟩ := ht.check c huscita hc hsegnali hU (capienti_posto K hposto)
  have hkeep : ∀ b, Sopra lo n (a.esp - 4) b → (kiSignalrespin c.kernel).mem b = m.kernel.mem b := by
    intro b hb
    refine (hch b fun hb' => ?_).trans (hmem b (Or.inl hb.within))
    rcases hb' with hb' | hb'
    · rw [h4] at hb'
      have hb4 := hb.1
      unfold Mem.Within at hb'
      bv_omega
    · exact hU.telaio (Or.inl hb.within) hb'
  have hservito : Annidate lo n eip₀ esp₀ V x₀ ((a, .servito) :: G) m.reg.eip (m.reg.esp + 4)
      m.kernel.mem := ⟨hcap, hword, hsopra, h4, hrest⟩
  have hcopre : Copre lo n V (Sopra lo n (a.esp - 4)) ((a, .servito) :: G) :=
    ⟨fun b hb => hb, fun hf => absurd hf (by decide)⟩
  exact ⟨r', hatt, (hservito.congr hcopre hkeep).prosegue hp (Annidate.copre_custoditi hV _) hposto,
    hp.eax⟩

/-- The innermost delivery is in the code of its handler. -/
def inGestore : Annidamento → Bool
  | (_, .gestore) :: _ => true
  | _ => false

/-- What one step leaves of the user stack, and of `EAX` unless it is a step of a handler. There is
a case for each instruction of the stub, for the code of a handler, and for the ways into the
kernel. -/
theorem Svolge.annidate (h : Svolge img st p e K lo n (m, G) (m', G'))
    (hm : m.Attende p r e (Custoditi K lo n)) (hU : Discosto e (Custoditi K lo n))
    (hA : Annidate lo n eip₀ esp₀ V x₀ G r.eip r.esp m.kernel.mem)
    (hV : ∀ b, V b → Sopra lo n esp₀ b) :
    ∃ r', m'.Attende p r' e (Custoditi K lo n) ∧
      Annidate lo n eip₀ esp₀ V x₀ G' r'.eip r'.esp m'.kernel.mem ∧
        (inGestore G' = false → r'.eax = r.eax) := by
  have hVU : ∀ b, V b → Custoditi K lo n b := fun b hb => Or.inl (hV b hb).within
  cases h with
  | altrui h hposto =>
    obtain ⟨r', hatt, hp⟩ := h.attende hm hU (capienti_posto K hposto)
    exact ⟨r', hatt, hA.prosegue hp (Annidate.copre_custoditi hVU _) hposto, fun _ => hp.eax⟩
  | interrotto he h hposto =>
    obtain ⟨r', hatt, hp⟩ := h.attende hm he hU (fun _ hb => hb) (capienti_posto K hposto)
    exact ⟨r', hatt, hA.prosegue hp (Annidate.copre_custoditi hVU _) hposto, fun _ => hp.eax⟩
  | chiamata he h hposto =>
    obtain ⟨r', hatt, hp⟩ := h.attende hm he hU (fun _ hb => hb.imp_left Sopra.within)
      (capienti_posto K hposto)
    exact ⟨r', hatt, hA.prosegue hp ⟨fun _ hb => Or.inl hb, fun hf => absurd hf (by decide)⟩ hposto,
      fun _ => hp.eax⟩
  | programma he hcs hesp hx =>
    obtain ⟨hcap, hword, hsopra, -, hrest⟩ := hA
    rename_i G a reg x
    have hA' : Annidate lo n eip₀ esp₀ V x₀ ((a, .gestore) :: G) reg.eip reg.esp m.kernel.mem :=
      ⟨hcap, hword, hsopra, hesp, hrest⟩
    exact ⟨reg, hm.esegue he hcs rfl rfl rfl,
      hA'.congr ⟨fun _ hb => Or.inl hb, fun hf => absurd hf (by decide)⟩ hx, nofun⟩
  | ritorna he hesp hcima =>
    obtain ⟨hcap, hword, hsopra, -, hrest⟩ := hA
    rename_i G a
    refine ⟨_, hm.esegue he rfl rfl rfl rfl, ⟨hcap, hword, hsopra, ?_, hrest⟩, ?_⟩
    · show m.reg.esp + 4 = a.esp - 8
      rw [hesp]
      bv_omega
    · intro _
      rw [← hm.reg he]
      rfl
  | spinge he heip =>
    rw [← hm.reg he] at hA ⊢
    exact ⟨_, hm.esegue he rfl rfl rfl rfl, spinge_annidate hA, fun _ => rfl⟩
  | serve he heip hm₁ hT hki hfuori h hc hposto =>
    rename_i m₁ G a cs
    have hk : m₁.kernel = m.kernel := by rw [hm₁]
    have hatt : m₁.Attende p m₁.reg e (Custoditi K lo n) := by
      refine hm.esegue he ?_ ?_ ?_ ?_ <;> rw [hm₁]
    have hA' : Annidate lo n eip₀ esp₀ V x₀ ((a, .spinto) :: G) m₁.reg.eip m₁.reg.esp
        m₁.kernel.mem := by
      rw [hk, show m₁.reg.esp = r.esp by rw [hm₁, hm.reg he]]
      exact hA.conEip _
    rw [← hk] at he hT
    obtain ⟨r', hatt', hA'', heax⟩ := serve_annidate hatt he hU hA' hVU hT hki hfuori h hc hposto
    refine ⟨r', hatt', hA'', fun _ => heax.trans ?_⟩
    rw [hm₁, hm.reg (hk ▸ he)]
  | somma he heip =>
    obtain ⟨hcap, hword, hsopra, hposto, hrest⟩ := hA
    rename_i G a
    have hr : m.reg.esp = a.esp - 8 := by rw [hm.reg he]; exact hposto
    refine ⟨_, hm.esegue he rfl rfl rfl rfl, ⟨hcap, hword, hsopra, ?_, hrest⟩, ?_⟩
    · show m.reg.esp + 4 = a.esp - 4
      rw [hr]
      bv_omega
    · intro _
      rw [← hm.reg he]
      rfl
  | torna he heip =>
    obtain ⟨hcap, hword, hsopra, hposto, hrest⟩ := hA
    rename_i a
    have hr : m.reg.esp = a.esp - 4 := by rw [hm.reg he]; exact hposto
    have heip' : m.ret.reg.eip = a.eip := by
      rw [← hword, ← hr]
      rfl
    have hesp' : m.ret.reg.esp = a.esp := by
      show m.reg.esp + 4 = a.esp
      rw [hr]
      bv_omega
    refine ⟨_, hm.esegue he rfl rfl rfl rfl, ?_, ?_⟩
    · rw [heip', hesp']
      exact hrest.congr (hrest.copre_sopra hV) hsopra
    · intro _
      rw [← hm.reg he]
      rfl

end Passo

end Pitos
