import Pitos.Machine.Nesting
import Pitos.Properties.Handlers
import Pitos.Properties.Switching

/-!
# The user stack after the handlers

`consegne_neutre`: when all the handlers have returned, in whatever order the signals have come
one inside the other, the interrupted code goes on where it was, with its stack pointer and the
stack above it. The words of a signal need a place apart from the system stack of the process
(`consegna_coperta`), where the interrupts and the C functions put theirs. The others write neither
there nor in what the kernel keeps for itself.
-/

namespace Pitos

open Lib

section Corsa

variable {img : Immagine} {st : Stub} {p : Pid} {e lo eip₀ esp₀ : Word} {n : Nat}
  {K V : Word → Prop} {x₀ : Mem}

/-- A run, with the deliveries that are open at its ends. -/
theorem annidate_corsa {x y : Macchina × Annidamento} {r : Registri}
    (hrun : Relation.ReflTransGen (Svolge img st p e K lo n) x y)
    (hm : x.1.Attende p r e (Custoditi K lo n)) (hU : Discosto e (Custoditi K lo n))
    (hA : Annidate lo n eip₀ esp₀ V x₀ x.2 r.eip r.esp x.1.kernel.mem)
    (hV : ∀ b, V b → Sopra lo n esp₀ b) :
    ∃ r', y.1.Attende p r' e (Custoditi K lo n) ∧
      Annidate lo n eip₀ esp₀ V x₀ y.2 r'.eip r'.esp y.1.kernel.mem := by
  induction hrun with
  | refl => exact ⟨r, hm, hA⟩
  | tail _ hstep ih =>
    obtain ⟨r', hm', hA'⟩ := ih
    obtain ⟨r'', hm'', hA'', -⟩ := hstep.annidate hm' hU hA' hV
    exact ⟨r'', hm'', hA''⟩

/-- A process of level 3 that is interrupted in `m`, or makes a call there, has its `EIP` and
`ESP` again in `m'`, where every delivery since then has been returned from, and the bytes `V` of
its stack that the call does not write. Nobody writes the descriptors and the rest `K` of what the
kernel keeps for itself. -/
theorem consegne_neutre {m m₁ m' : Macchina} {cs : List Attivazione}
    (he : m.kernel.esecuzione = some p) (hcpl : m.cpl ≠ 0)
    (htss : m.kernel.tssEsp0 = (m.kernel.des (some p)).stk 0)
    (hstk : (m.kernel.des (some p)).stk 0 = e + 20)
    (hl : m.kernel.Lontani p (Riservati e (Custoditi (Nucleo m.kernel.link K) lo n)))
    (hU : PileApparte e (Nucleo m.kernel.link K) lo n) (hV : ∀ b, V b → Sopra lo n m.reg.esp b)
    (h : m.Passa img p e (Custoditi (Nucleo m.kernel.link K) lo n)
      (fun b => V b ∨ Nucleo m.kernel.link K b) m₁ cs)
    (hposto : ∀ a ∈ cs, Capiente lo n a.esp)
    (hrun : Relation.ReflTransGen (Svolge img st p e (Nucleo m.kernel.link K) lo n)
      (m₁, nuove cs) (m', []))
    (he' : m'.kernel.esecuzione = some p) :
    m'.reg.eip = m.reg.eip ∧ m'.reg.esp = m.reg.esp ∧
      ∀ b, V b → m'.kernel.mem b = m.kernel.mem b := by
  have hm : m.Attende p m.reg e (Custoditi (Nucleo m.kernel.link K) lo n) :=
    ⟨fun _ => rfl, fun hne => absurd he hne, hcpl, hstk, hl, fun q hq => by
      obtain rfl := Option.some.inj (he.symm.trans hq)
      exact htss⟩
  obtain ⟨r₁, hm₁, hp⟩ := h.attende hm he hU.discosta
    (fun b hb => hb.imp_left fun hb => (hV b hb).within) (capienti_posto _ hposto)
  have hA : Annidate lo n m.reg.eip m.reg.esp V m.kernel.mem [] m.reg.eip m.reg.esp m.kernel.mem :=
    ⟨rfl, rfl, fun _ _ => rfl⟩
  have hA₁ := hA.prosegue hp (fun _ hb => Or.inl hb) hposto
  rw [List.append_nil] at hA₁
  obtain ⟨r', hm', heip, hesp, hmem⟩ := annidate_corsa hrun hm₁ hU.discosta hA₁ hV
  rw [hm'.reg he']
  exact ⟨heip, hesp, hmem⟩

end Corsa

/-! ## A run

Two signals are pending on the process when it is interrupted. The second one is delivered on the
way out of the `__signalrespin` of the first one. -/

def stubRespin : Stub := ⟨0x30202, 0x30204, 0x30207⟩

/-- The same machine with the tables in memory. -/
def Macchina.conTabelle (m : Macchina) : Macchina :=
  { m with kernel := { m.kernel with mem := immagine.sopra m.kernel.mem } }

/-- At the `int` of the stub. -/
def Macchina.oltreRet (st : Stub) (m : Macchina) : Macchina :=
  let c := m.ret.stub 13 st.alInt
  { c with reg := { c.reg with eip := st.dopoInt } }

/-- A handler has returned at once. -/
def Macchina.allaInt (m : Macchina) : Macchina := m.conTabelle.oltreRet stubRespin

/-- After the call. -/
def Macchina.dopoStub (m : Macchina) : Macchina := m.allaInt.dopoChiamata immagine .signalrespin

/-- The end of the stub. -/
def Macchina.fineStub (m : Macchina) : Macchina :=
  ({ m.addEsp4 with reg := { m.addEsp4.reg with eip := stubRespin.alRet } } : Macchina).ret

/-- The descriptors. -/
def descrittori (b : Word) : Prop := Nucleo collegato nessuno b

theorem descrittori_posto {b : Word} (h : descrittori b) : Mem.Within 0x34000 4320 b :=
  (nucleo_posto h).resolve_right id

/-- The steps of the process with the user stack at 0x3F000. -/
abbrev Passi :=
  Relation.ReflTransGen (Svolge immagine stubRespin 1 0x20FEC descrittori 0x3F000 0x2000)

section Rientro

variable {m : Macchina} {G : Annidamento} {a : Attivazione} {cs : List Attivazione}

theorem Macchina.oltreRet_parti (st : Stub) (m : Macchina) :
    (m.oltreRet st).reg.cs = m.reg.cs ∧ (m.oltreRet st).kernel.tssEsp0 = m.kernel.tssEsp0 ∧
      (m.oltreRet st).kernel.mem = m.kernel.mem.write32 (m.reg.esp + 4 - 4) 13 := by
  unfold Macchina.oltreRet
  exact ⟨rfl, rfl, rfl⟩

theorem allaInt_libera (hcpl : m.cpl = 3) (htss : m.kernel.tssEsp0 = 0x21000)
    (hlo : Mem.Within 0x3F000 0x1FF8 m.reg.esp) :
    immagine.Caricata m.allaInt.kernel.mem ∧
      ∀ b, Mem.Within immagine.syscallTable (4 * immagine.tabelle.length) b →
        ¬ m.allaInt.Zona b := by
  obtain ⟨hcs, htss', hmem⟩ := m.conTabelle.oltreRet_parti stubRespin
  have hbase : m.allaInt.base = 0x20FEC := by
    refine Macchina.base_stk ?_ ?_
    · unfold Macchina.cpl at hcpl
      rw [Macchina.cpl, Macchina.allaInt, hcs, Macchina.conTabelle, hcpl]
      decide
    · rw [Macchina.allaInt, htss', Macchina.conTabelle, htss]
      decide
  refine ⟨?_, fun b hb hz => ?_⟩
  · have hreg : m.conTabelle.reg = m.reg := rfl
    rw [Macchina.allaInt, hmem, hreg]
    refine (sopra_caricata immagine m.kernel.mem).congr
      ((Mem.ChangesAt.refl _).write32 fun b hb => hb) fun b hb hb' => ?_
    rw [tabelle_length] at hb
    replace hb : Mem.Within 0x32000 936 b := hb
    unfold Mem.Within at *
    bv_omega
  · replace hz := Macchina.zona_attorno hz
    rw [hbase] at hz
    rw [tabelle_length] at hb
    replace hb : Mem.Within 0x32000 936 b := hb
    simp only [Mem.Within] at hb hz
    bv_omega

/-- In a handler with the stack pointer `u`, when nothing stands in the way of its return. -/
structure Macchina.PerTornare (m : Macchina) (u : Word) : Prop where
  esecuzione : m.kernel.esecuzione = some 1
  livello : m.cpl = 3
  pila : m.kernel.tssEsp0 = 0x21000
  esp : m.reg.esp = u
  cima : m.conTabelle.cima = m.kernel.link.signalrespin
  arrivo : (syscalle immagine m.allaInt.interruzione).1 =
    .funzione (immagine.ki Chiamata.signalrespin.nome)
  uscita : riesce (Pitos.signalsCheck
    (kiSignalrespin (syscalle immagine m.allaInt.interruzione).2.kernel)) = true

/-- A handler that returns at once, up to the end of its `__signalrespin`. -/
theorem passi_respin {u : Word} (hm : m.PerTornare u) (hlo : Mem.Within 0x3F000 0x1FF4 u)
    (hu : u = a.esp - 12)
    (hc : (kiSignalrespin (syscalle immagine m.allaInt.interruzione).2.kernel).Consegna 1 cs)
    (hposto : ∀ a ∈ cs, Capiente 0x3F000 0x2000 a.esp) :
    Passi (m, (a, .gestore) :: G) (m.dopoStub, nuove cs ++ (a, .servito) :: G) := by
  obtain ⟨he, hcpl, htss, hesp, hcima, harr, h⟩ := hm
  rw [← hesp] at hlo hu
  have hhigh : (m.reg.esp - 0x3F000).toNat + 12 = (a.esp - 0x3F000).toNat := by
    unfold Mem.Within at hlo
    rw [hu] at hlo ⊢
    bv_omega
  have hsopra : ∀ b, Sopra 0x3F000 0x2000 (a.esp - 4) b ∨ descrittori b →
      m.conTabelle.kernel.mem b = m.kernel.mem b := by
    intro b hb
    have hb : Mem.Within 0x3F000 0x2000 b ∨ Mem.Within 0x34000 4320 b :=
      hb.imp Sopra.within descrittori_posto
    apply sopra_fuori
    intro hb'
    rw [tabelle_length] at hb'
    replace hb' : Mem.Within 0x32000 936 b := hb'
    rcases hb with hb | hb <;> simp only [Mem.Within] at hb hb' <;> bv_omega
  obtain ⟨hT, hfuori⟩ := allaInt_libera hcpl htss (hlo.mono (by decide))
  have hprog : Svolge immagine stubRespin 1 0x20FEC descrittori 0x3F000 0x2000
      (m, (a, .gestore) :: G) (m.conTabelle, (a, .gestore) :: G) := .programma he rfl (by omega) hsopra
  have hret : Svolge immagine stubRespin 1 0x20FEC descrittori 0x3F000 0x2000
      (m.conTabelle, (a, .gestore) :: G) (m.conTabelle.ret, (a, .entrato) :: G) := .ritorna he hu hcima
  have hpush : Svolge immagine stubRespin 1 0x20FEC descrittori 0x3F000 0x2000
      (m.conTabelle.ret, (a, .entrato) :: G)
      (m.conTabelle.ret.stub 13 stubRespin.alInt, (a, .spinto) :: G) := .spinge he hcima
  have hT' : immagine.Caricata (m.conTabelle.ret.stub 13 stubRespin.alInt).kernel.mem := hT
  have hint : Svolge immagine stubRespin 1 0x20FEC descrittori 0x3F000 0x2000
      (m.conTabelle.ret.stub 13 stubRespin.alInt, (a, .spinto) :: G)
      (m.dopoStub, nuove cs ++ (a, .servito) :: G) :=
    .serve he rfl (show m.allaInt = _ from rfl) hT' (by decide) hfuori
      (dopoChiamata_chiama harr rfl h) hc hposto
  exact (((Relation.ReflTransGen.single hprog).tail hret).tail hpush).tail hint

theorem passi_fine (he : m.kernel.esecuzione = some 1) (heip : m.reg.eip = stubRespin.dopoInt) :
    Passi (m, (a, .servito) :: G) (m.fineStub, G) :=
  (Relation.ReflTransGen.single (.somma he heip)).tail (.torna he rfl)

end Rientro

/-- The process with the stack pointer `esp`, and the signals `mask`. -/
def dueSegnali (esp mask : Word) : Macchina where
  reg := { (utente []).reg with esp }
  kernel := (utente []).kernel.aggiorna (some 1) fun d =>
    { d with
      stk := pila 0x21000
      sigMask := mask
      sigHandlers := fun _ => 0x60000 }

/-- In the first handler. -/
def alPrimo : Macchina := (dueSegnali 0x4000C 0xC00).dopoTick

/-- In the second handler. -/
def alSecondo : Macchina := alPrimo.dopoStub

/-- After the two stubs. -/
def tornato : Macchina := alSecondo.dopoStub.fineStub.fineStub

def primaConsegna : Attivazione :=
  (dueSegnali 0x4000C 0xC00).interruzione.salvaStato.kernel.attivazione 1

def secondaConsegna : Attivazione :=
  (kiSignalrespin (syscalle immagine alPrimo.allaInt.interruzione).2.kernel).attivazione 1

theorem dueSegnali_primo : (dueSegnali 0x4000C 0xC00).interruzione.salvaStato.kernel.Gestito 1 10
    0x60000 ∧ riesce (cdriverT (dueSegnali 0x4000C 0xC00).interruzione.salvaStato.kernel) = true ∧
    primaConsegna.esp = 0x4000C ∧ alPrimo.PerTornare 0x40000 := by
  refine ⟨⟨?_, ?_, ?_⟩, ?_, ?_, ⟨?_, ?_, ?_, ?_, ?_, ?_, ?_⟩⟩
  all_goals decide +kernel

theorem dueSegnali_secondo :
    (kiSignalrespin (syscalle immagine alPrimo.allaInt.interruzione).2.kernel).Gestito 1 11
      0x60000 ∧
    (kiSignalrespin (syscalle immagine alPrimo.allaInt.interruzione).2.kernel).esecuzione = some 1 ∧
    secondaConsegna.esp = 0x40004 ∧ alSecondo.PerTornare 0x3FFF8 ∧
    ((kiSignalrespin (syscalle immagine alSecondo.allaInt.interruzione).2.kernel).des
      (kiSignalrespin (syscalle immagine alSecondo.allaInt.interruzione).2.kernel).esecuzione).sigMask
      = 0 := by
  refine ⟨⟨?_, ?_, ?_⟩, ?_, ?_, ⟨?_, ?_, ?_, ?_, ?_, ?_, ?_⟩, ?_⟩
  all_goals decide +kernel

theorem dueSegnali_fine : alSecondo.dopoStub.kernel.esecuzione = some 1 ∧
    alSecondo.dopoStub.reg.eip = stubRespin.dopoInt ∧
    alSecondo.dopoStub.fineStub.kernel.esecuzione = some 1 ∧
    alSecondo.dopoStub.fineStub.reg.eip = stubRespin.dopoInt ∧
    tornato.kernel.esecuzione = some 1 := by
  refine ⟨?_, ?_, ?_, ?_, ?_⟩
  all_goals decide +kernel

theorem capiente_primaConsegna : Capiente 0x3F000 0x2000 primaConsegna.esp := by
  rw [dueSegnali_primo.2.2.1]
  exact ⟨by decide, by decide⟩

theorem capiente_secondaConsegna : Capiente 0x3F000 0x2000 secondaConsegna.esp := by
  rw [dueSegnali_secondo.2.2.1]
  exact ⟨by decide, by decide⟩

theorem alPrimo_passi {G : Annidamento} : Passi (alPrimo, (primaConsegna, .gestore) :: G)
    (alSecondo, (secondaConsegna, .gestore) :: (primaConsegna, .servito) :: G) := by
  obtain ⟨-, -, hesp, hm⟩ := dueSegnali_primo
  obtain ⟨hg, he, -⟩ := dueSegnali_secondo
  have hc : (kiSignalrespin (syscalle immagine alPrimo.allaInt.interruzione).2.kernel).Consegna 1
      [secondaConsegna] := .una he hg
  refine passi_respin hm (by decide) ?_ hc ?_
  · rw [hesp]
    decide
  · simpa using capiente_secondaConsegna

theorem alSecondo_passi {G : Annidamento} : Passi (alSecondo, (secondaConsegna, .gestore) :: G)
    (alSecondo.dopoStub, (secondaConsegna, .servito) :: G) := by
  obtain ⟨-, -, hesp, hm, hmask⟩ := dueSegnali_secondo
  have hc := (senza_segnali 1 nessuno hmask).2
  refine passi_respin hm (by decide) ?_ hc (by simp)
  rw [hesp]
  decide

theorem tornato_passi : Passi (alPrimo, nuove [primaConsegna]) (tornato, []) := by
  obtain ⟨he₁, heip₁, he₂, heip₂, -⟩ := dueSegnali_fine
  have hfine₁ : Passi (alSecondo.dopoStub, [(secondaConsegna, .servito), (primaConsegna, .servito)])
      (alSecondo.dopoStub.fineStub, [(primaConsegna, .servito)]) := passi_fine he₁ heip₁
  have hfine₂ : Passi (alSecondo.dopoStub.fineStub, [(primaConsegna, .servito)]) (tornato, []) :=
    passi_fine he₂ heip₂
  exact ((alPrimo_passi.trans alSecondo_passi).trans hfine₁).trans hfine₂

theorem dueSegnali_passa (U V : Word → Prop) :
    (dueSegnali 0x4000C 0xC00).Passa immagine 1 0x20FEC U V alPrimo [primaConsegna] := by
  obtain ⟨hg, hriesce, -⟩ := dueSegnali_primo
  exact .tick (fun h => absurd h (by decide))
    (fun q _ _ hq hq' => absurd (Option.some.inj hq').symm hq) (.una rfl hg) (dopoTick_eq hriesce)

theorem custoditi_posto {b : Word} (h : Custoditi descrittori 0x3F000 0x2000 b) :
    Mem.Within 0x3F000 0x2000 b ∨ Mem.Within 0x34000 4320 b :=
  h.imp_right descrittori_posto

theorem dueSegnali_lontani (esp mask : Word) : (dueSegnali esp mask).kernel.Lontani 1
    (Riservati 0x20FEC (Custoditi descrittori 0x3F000 0x2000)) := by
  have hdes : ∀ q : Pid, q ≠ 1 → ((dueSegnali 0 0).kernel.des (some q)).stk 0 = 0 ∧
      ((dueSegnali 0 0).kernel.des (some q)).context iESP = 0 := by decide
  have hdes' : ∀ q : Pid, q ≠ 1 → (dueSegnali esp mask).kernel.des (some q) =
      (dueSegnali 0 0).kernel.des (some q) := fun q hq => by
    simp [dueSegnali, Kernel.aggiorna, Function.update, hq]
  refine ⟨fun q hq b hb hr => ?_, fun q hq b hb hr => ?_⟩
  · rw [hdes' q hq, (hdes q hq).1] at hb
    replace hb : Mem.Within (0 - 4096) 4096 b := hb
    replace hr : Mem.Within 0x20FEC 20 b ∨ _ := hr.imp id custoditi_posto
    rcases hr with hr | hr | hr <;> simp only [Mem.Within] at hb hr <;> bv_omega
  · rw [hdes' q hq, (hdes q hq).2] at hb
    replace hr : Mem.Within 0x20FEC 20 b ∨ _ := hr.imp id custoditi_posto
    rcases hr with hr | hr | hr <;> simp only [Mem.Within] at hb hr <;> bv_omega

theorem pile_apparte : PileApparte 0x20FEC descrittori 0x3F000 0x2000 := by
  constructor
  · intro b hb hb'
    replace hb' : Mem.Within (0x20FEC + 20 - 4096) 4096 b := hb'
    rcases custoditi_posto hb with hb | hb <;> simp only [Mem.Within] at hb hb' <;> bv_omega
  · intro b hb hb'
    have hdes := descrittori_posto hb'
    simp only [Mem.Within] at hb hdes
    bv_omega

/-- The process is back from both handlers. -/
theorem consegne_neutre_corsa : tornato.reg.eip = 0x50000 ∧ tornato.reg.esp = 0x4000C ∧
    ∀ b, Sopra 0x3F000 0x2000 0x4000C b →
      tornato.kernel.mem b = (dueSegnali 0x4000C 0xC00).kernel.mem b := by
  exact consegne_neutre (m := dueSegnali 0x4000C 0xC00) (K := nessuno) rfl (by decide) (by decide)
    (by decide) (dueSegnali_lontani _ _) pile_apparte (fun _ hb => hb) (dueSegnali_passa _ _)
    (by simpa using capiente_primaConsegna) tornato_passi dueSegnali_fine.2.2.2.2

/-! A process whose stack is just below the frame of an interrupt: the call of `__signalrespin`
writes over the word that keeps `EIP`. -/

/-- The handler and the stub have been executed, and no other signal has come. -/
def Macchina.ripreso (m : Macchina) : Macchina := m.dopoStub.fineStub

def sotto : Macchina := dueSegnali 0x20FE0 0x400

theorem consegna_coperta :
    sotto.kernel.esecuzione = some 1 ∧ sotto.cpl = 3 ∧ sotto.kernel.Gestito 1 10 0x60000 ∧
      sotto.interruzione.acdriverT = .ok sotto.dopoTick ∧ sotto.dopoTick.reg.eip = 0x60000 ∧
      sotto.dopoTick.conTabelle.cima = sotto.kernel.link.signalrespin ∧
      Macchina.Chiama immagine .signalrespin sotto.dopoTick.allaInt sotto.dopoTick.dopoStub ∧
      sotto.dopoTick.ripreso.reg.esp = sotto.reg.esp ∧
      sotto.dopoTick.ripreso.reg.eip ≠ sotto.reg.eip := by
  refine ⟨?_, ?_, ⟨?_, ?_, ?_⟩, dopoTick_eq ?_, ?_, ?_, dopoChiamata_chiama ?_ ?_ ?_, ?_, ?_⟩
  all_goals decide +kernel

end Pitos
