import Pitos.Machine.Isolation
import Pitos.Properties.Endings

/-!
# Context switches

`cambio_trasparente`: a process of level 3 that stops running goes on with the registers that it
had, however many other processes run in between and whatever calls they make; a new one starts
with those that `ki_activate_p_level` has written. Nothing protects the memory: in these runs
nobody writes the frame, the descriptors and what else the kernel keeps for itself, neither with an
instruction nor through a pointer that is given to a call, and the stacks of the processes are
apart from these and from each other. `__signalrespin` moves the stack pointer of its caller
(`cambio_visibile`).
-/

namespace Pitos

open Lib

/-- No byte. -/
def nessuno (_ : Word) : Prop := False

/-! ## A new process -/

/-- The registers of a new process with the function `f`: the slots of `context`, of which some
are those of the last owner of the descriptor, and the frame for `iret`. -/
def registriNuovi (c : Fin NUMREG → Word) (f : Word) (stk : Fin 3 → Word) : Registri :=
  let c := registriIniziali (stk 0 - 20) c
  { eax := c 0, ebx := c 1, ecx := c 2, edx := c 3, esi := c 4, edi := c 5, ebp := c 6
    esp := stk 2 - 8, eip := f, eflags := 1 <<< 9
    cs := bassa USERCODESEL, ss := bassa USERDSSEL
    ds := bassa (c 11), es := bassa (c 8), fs := bassa (c 9), gs := bassa (c 10) }

/-- `ki_activate_p_level` succeeds in `s`: the process `p` of level 3 comes into being. -/
structure Nasce (s t : Kernel) (p : Pid) (f g : Word) (prec level : Int) (idx risu : Word)
    (stk : Fin 3 → Word) : Prop where
  attiva : kiActivatePLevel f g prec level idx risu stk s = .ok t
  libero : s.cercaLibero = some p
  livello : clamp level 0 3 = 3
  esito : t.mem risu = 1
  fuori : ¬ PileNuove stk risu

section Nasce

variable {s t : Kernel} {p : Pid} {f g : Word} {prec level : Int} {idx risu : Word}
  {stk : Fin 3 → Word} {U : Word → Prop}

theorem pilaIniziale_telaio (s : Kernel) (c : Fin NUMREG → Word) (f g : Word) (stk : Fin 3 → Word) :
    Telaio (registriNuovi c f stk) (s.pilaIniziale f g 3 stk) (stk 0 - 20) := by
  have hword : ∀ {i : Nat} {w : Word}, [f, USERCODESEL, 1 <<< 9, stk 2 - 8, USERDSSEL][i]? = some w →
      (s.pilaIniziale f g 3 stk).read32 (stk 0 - 20 + BitVec.ofNat 32 (4 * i)) = w :=
    fun hw => pilaIniziale_sistema (by rw [paroleSistema, if_pos rfl]; exact hw)
  have h0 : stk 0 - 20 + BitVec.ofNat 32 (4 * 0) = stk 0 - 20 := by bv_omega
  refine ⟨?_, ?_, ?_, fun _ => ?_, fun _ => ?_⟩
  · rw [← h0]
    exact hword rfl
  · exact congrArg bassa (hword (i := 1) rfl)
  · exact hword (i := 2) rfl
  · exact hword (i := 3) rfl
  · exact congrArg bassa (hword (i := 4) rfl)

theorem Nasce.sospeso (h : Nasce s t p f g prec level idx risu stk) :
    Sospeso p (registriNuovi (s.des (some p)).context f stk) (stk 0 - 20) t := by
  obtain ⟨-, hcontext, s₁, -, hmem⟩ := kiActivatePLevel_attivata h.libero h.attiva h.esito
  rw [h.livello] at hmem
  refine ⟨⟨?_, ?_, ?_, ?_, ?_, ?_, ?_, ?_, ?_, ?_, ?_⟩, ?_, ?_⟩
  iterate 7 rw [hcontext]; rfl
  iterate 4 rw [hcontext]; rfl
  · rw [hcontext, registriIniziali_iESP]
  · have hch : Mem.ChangesAt (fun b => b = risu) (s₁.pilaIniziale f g 3 stk) t.mem :=
      fun b hb => hmem b hb
    apply (pilaIniziale_telaio s₁ (s.des (some p)).context f g stk).congr hch
    intro b hb hb'
    exact h.fuori (Or.inl (hb' ▸ hb))

/-- The other processes are as far away as they were. -/
theorem Nasce.custodisce (h : Nasce s t p f g prec level idx risu stk)
    (hl : s.Lontani p (Riservati (stk 0 - 20) U)) :
    t.Custodisce p (registriNuovi (s.des (some p)).context f stk) (stk 0 - 20) U := by
  have hdes := kiActivatePLevel_descrittori h.attiva
  have haltri : ∀ x, x ≠ p → (t.des (some x)).context = (s.des (some x)).context ∧
      (t.des (some x)).stk = (s.des (some x)).stk := by
    intro x hx
    rcases hdes (some x) with hd | ⟨hlibero, -⟩
    · exact hd
    · exact absurd (Option.some.inj (hlibero.trans h.libero)) hx
  have hstk : (t.des (some p)).stk = stk := congrArg DesProc.stk
    (kiActivatePLevel_nuovo (kiActivatePLevel_posto h.attiva h.esito) h.libero h.attiva)
  refine ⟨h.sospeso, (by decide : bassa USERCODESEL &&& 3 ≠ 0), ?_, fun x hx b hb => ?_,
    fun x hx b hb => ?_⟩
  · rw [hstk]
    bv_omega
  · rw [(haltri x hx).2] at hb
    exact hl.pila x hx b hb
  · rw [(haltri x hx).1] at hb
    exact hl.esp x hx b hb

end Nasce

/-! ## From one dispatch to the next -/

/-- The process `p` stops running, or comes into being, and is to go on with the registers `r`
from the frame at `e`; the machine is then in the state `m₁`. The calls do not write the bytes
of `U`. -/
inductive Lascia (img : Immagine) (p : Pid) (e : Word) (U : Word → Prop) :
    Registri → Macchina → Prop
  /-- By an interrupt of the timer, or by a call of its own. -/
  | interrotto {m m₁ : Macchina} (he : m.kernel.esecuzione = some p) (hcpl : m.cpl ≠ 0)
      (htss : m.kernel.tssEsp0 = (m.kernel.des (some p)).stk 0)
      (hstk : (m.kernel.des (some p)).stk 0 = e + 20) (hl : m.kernel.Lontani p (Riservati e U))
      (h : m.Passa img p e U U m₁ []) : Lascia img p e U m.reg m₁
  /-- By a call of another process, which activates it. -/
  | attivato {m m₁ : Macchina} {q : Pid} {s t : Kernel} {d : Dichiarazione} {f g : Word}
      {prec : Int} {idx risu : Word} {stk : Fin 3 → Word} (he : m.kernel.esecuzione = some q)
      (hq : q ≠ p) (hd : m.Numero img d) (hnome : d.nome = .activateP)
      (hs : (syscalle img m.interruzione).2.kernel = s)
      (hw : ∀ b, (Chiamata.activateP f g prec idx risu stk).Scrive s b → ¬ U b)
      (h : Nasce s t p f g prec 3 idx risu stk) (hstk : stk 0 = e + 20)
      (hl : s.Lontani p (Riservati e U)) (hsig : t.SegnaliFuori p (Riservati e U))
      (h' : ((syscalle img m.interruzione).2.conKernel t).signalsCheck = .ok m₁) :
      Lascia img p e U (registriNuovi (s.des (some p)).context f stk) m₁
  /-- By `cmain`. -/
  | creato {s t : Kernel} {f g : Word} {prec level : Int} {idx risu : Word} {stk : Fin 3 → Word}
      (he : s.esecuzione = none)
      (hw : ∀ b, (Chiamata.activateP f g prec idx risu stk).Scrive s b → ¬ U b)
      (h : Nasce s t p f g prec level idx risu stk) (hstk : stk 0 = e + 20)
      (hl : s.Lontani p (Riservati e U)) (reg : Registri) :
      Lascia img p e U (registriNuovi (s.des (some p)).context f stk) ⟨reg, t⟩

section Corsa

variable {img : Immagine} {p : Pid} {e : Word} {U : Word → Prop} {r : Registri} {m₁ m₂ : Macchina}

theorem Lascia.attende (h : Lascia img p e U r m₁) (hU : Discosto e U) : m₁.Attende p r e U := by
  cases h with
  | interrotto he hcpl htss hstk hl h =>
    rename_i m
    have hm : m.Attende p m.reg e U :=
      ⟨fun _ => rfl, fun hne => absurd he hne, hcpl, hstk, hl, fun q hq => by
        obtain rfl := Option.some.inj (he.symm.trans hq)
        exact htss⟩
    obtain ⟨r', hatt, hp⟩ := h.attende hm he hU (fun _ hb => hb) (by simp)
    cases hp with
    | piano _ => exact hatt
  | attivato he hq hd hnome hs hw h hstk hl hsig h' =>
    rename_i m q s t d f g prec idx risu stk
    have he' : e = stk 0 - 20 := by
      rw [hstk]
      bv_omega
    subst he'
    have hesec : t.esecuzione = some q := by
      rw [(kiActivatePLevel_code h.attiva).esecuzione, ← hs, (syscalle_dentro hd).2.esecuzione, he]
    have hcons : t.Consegna p [] :=
      .nessuna fun hp => absurd (Option.some.inj (hesec.symm.trans hp)) hq
    obtain ⟨r', hatt, hp⟩ := (h.custodisce hl).check _ h' hcons hsig hU (by simp)
    cases hp with
    | piano _ => exact hatt
  | creato he hw h hstk hl reg =>
    rename_i s t f g prec level idx risu stk
    have he' : e = stk 0 - 20 := by
      rw [hstk]
      bv_omega
    subst he'
    have hesec : t.esecuzione = none := (kiActivatePLevel_code h.attiva).esecuzione.trans he
    refine (h.custodisce hl).attende ?_ (fun q hq => ?_) reg
    · rw [hesec]
      rintro ⟨⟩
    · rw [hesec] at hq
      cases hq

/-- What the others do leaves the process as it is. -/
theorem attende_corsa (h : m₁.Attende p r e U) (hU : Discosto e U)
    (hrun : Relation.ReflTransGen (fun m m' => m.Altrui img p e U m' []) m₁ m₂) :
    m₂.Attende p r e U := by
  induction hrun with
  | refl => exact h
  | tail _ hstep ih =>
    obtain ⟨r', hatt, hp⟩ := hstep.attende ih hU (by simp)
    cases hp with
    | piano _ => exact hatt

end Corsa

/-! ## A run

The process 1 has used up its quantum and the process 2 is ready. The latter calls `getPri` with
the address `pri`, and at the next interrupt the priorities are computed anew. -/

/-- After an interrupt of the timer. -/
def Macchina.dopoTick (m : Macchina) : Macchina :=
  (m.interruzione.salvaStato.conKernel (dopo (cdriverT m.interruzione.salvaStato.kernel))).caricaStato

/-- After the call `c`. -/
def Macchina.dopoChiamata (img : Immagine) (c : Chiamata) (m : Macchina) : Macchina :=
  let x := (syscalle img m.interruzione).2
  let t := dopo (esegui c x.kernel)
  ((x.conKernel t).conKernel (dopo (Pitos.signalsCheck t))).caricaStato

theorem dopoTick_eq {m : Macchina}
    (h : riesce (cdriverT m.interruzione.salvaStato.kernel) = true) :
    m.interruzione.acdriverT = .ok m.dopoTick := by
  obtain ⟨k, hk⟩ : ∃ k, cdriverT m.interruzione.salvaStato.kernel = .ok k := ⟨_, dopo_eq h⟩
  unfold Macchina.acdriverT Macchina.dopoTick
  simp only [hk]
  rfl

theorem signalsCheck_eq {c : Macchina} {t : Kernel} (h : riesce (Pitos.signalsCheck t) = true) :
    (c.conKernel t).signalsCheck =
      .ok ((c.conKernel t).conKernel (dopo (Pitos.signalsCheck t))).caricaStato := by
  have ht : Pitos.signalsCheck (c.conKernel t).kernel = .ok (dopo (Pitos.signalsCheck t)) :=
    dopo_eq h
  unfold Macchina.signalsCheck
  rw [ht]
  rfl

theorem dopoChiamata_chiama {img : Immagine} {c : Chiamata} {m : Macchina}
    (harr : (syscalle img m.interruzione).1 = .funzione (img.ki c.nome))
    (h : riesce (esegui c (syscalle img m.interruzione).2.kernel) = true)
    (h' : riesce (Pitos.signalsCheck (dopo (esegui c (syscalle img m.interruzione).2.kernel))) =
      true) : Macchina.Chiama img c m (m.dopoChiamata img c) := by
  refine ⟨harr, ?_⟩
  rw [dopo_eq h]
  exact signalsCheck_eq h'

def alternati (pri : Word) : Macchina where
  reg := (utente []).reg
  kernel := { (utente []).kernel with
    des := Function.update (Function.update caricato.des (some 1)
        { caricato.des none with stk := pila 0x21000, stato := .RUNNING, prec := 10, tick := 10 })
      (some 2) { caricato.des none with
        context := registriIniziali 0x27FEC fun _ => 0
        stk := pila 0x28000, stato := .PRONTO, prec := 10, baseprec := 10 }
    pronti := some 2
    procCount := 3
    rescheduler := 49
    mem := ((utente []).kernel.mem.writeWords 0x27FEC
      [0x60002, USERCODESEL, 0x200, 0x29000, USERDSSEL]).writeWords 0x29000 [8, 0x60100, pri] }

/-- The tables. -/
def intorno (b : Word) : Prop := Mem.Within 0x32000 936 b

/-- The descriptors and the tables. -/
def nucleo (b : Word) : Prop := Nucleo collegato intorno b

theorem nucleo_collegato {l : Link} (h : l.desproc = 0x34000) (K : Word → Prop) :
    Nucleo l K = Nucleo collegato K := by
  unfold Nucleo indirizzo
  rw [h]
  rfl

theorem nucleo_posto {K : Word → Prop} {b : Word} (h : Nucleo collegato K b) :
    Mem.Within 0x34000 4320 b ∨ K b := by
  refine h.imp_left ?_
  rintro ⟨q, hq⟩
  apply Mem.Within.of_offset (a := 0x34000) hq
  have hlt : q.val < 20 := q.isLt
  have hmod : 216 * q.val < 2 ^ 32 := by omega
  rw [BitVec.toNat_ofNat, Nat.mod_eq_of_lt hmod]
  omega

theorem alternati_tabelle (pri : Word) : immagine.Caricata (alternati pri).kernel.mem := by
  have h₁ := Mem.writeWords_changes (utente []).kernel.mem 0x27FEC
    [0x60002, USERCODESEL, 0x200, 0x29000, USERDSSEL] (by decide)
  have h₂ := Mem.writeWords_changes ((utente []).kernel.mem.writeWords 0x27FEC
    [0x60002, USERCODESEL, 0x200, 0x29000, USERDSSEL]) 0x29000 [8, 0x60100, pri]
    (show 4 * 3 < 2 ^ 32 by decide)
  have hmem : ∀ {x y : Mem} {a : Word} {n : Nat}, immagine.Caricata x →
      Mem.ChangesAt (Mem.Within a n) x y → (∀ b, intorno b → ¬ Mem.Within a n b) →
        immagine.Caricata y := fun hx hxy hfar => hx.congr hxy fun b hb => by
    rw [tabelle_length] at hb
    exact hfar b hb
  refine hmem (hmem (sopra_caricata immagine _) h₁ fun b hb hb' => ?_) h₂ fun b hb hb' => ?_
  · replace hb' : Mem.Within 0x27FEC 20 b := hb'
    unfold intorno Mem.Within at *
    bv_omega
  · replace hb' : Mem.Within 0x29000 12 b := hb'
    unfold intorno Mem.Within at *
    bv_omega

theorem alternati_lontani (pri : Word) :
    (alternati pri).kernel.Lontani 1 (Riservati 0x20FEC nucleo) := by
  have hdes : ∀ q : Pid, q ≠ 1 → (((alternati 0).kernel.des (some q)).stk 0 = 0 ∨
      ((alternati 0).kernel.des (some q)).stk 0 = 0x28000) ∧
      (((alternati 0).kernel.des (some q)).context iESP = 0 ∨
        ((alternati 0).kernel.des (some q)).context iESP = 0x27FEC) := by decide
  refine ⟨fun q hq b hb hr => ?_, fun q hq b hb hr => ?_⟩
  · replace hb : Mem.Within (((alternati 0).kernel.des (some q)).stk 0 - 4096) 4096 b := hb
    replace hr : Mem.Within 0x20FEC 20 b ∨ _ := hr.imp id nucleo_posto
    rcases (hdes q hq).1 with h | h <;> rw [h] at hb <;> rcases hr with hr | hr | hr <;>
      simp only [intorno, Mem.Within] at hb hr <;> bv_omega
  · replace hb : Mem.Within (((alternati 0).kernel.des (some q)).context iESP - 24) 44 b := hb
    replace hr : Mem.Within 0x20FEC 20 b ∨ _ := hr.imp id nucleo_posto
    rcases (hdes q hq).2 with h | h <;> rw [h] at hb <;> rcases hr with hr | hr | hr <;>
      simp only [intorno, Mem.Within] at hb hr <;> bv_omega

theorem nucleo_discosto : Discosto 0x20FEC nucleo := by
  intro b hb hb'
  replace hb' : Mem.Within (0x20FEC + 20 - 4096) 4096 b := hb'
  rcases nucleo_posto hb with hb | hb <;> simp only [intorno, Mem.Within] at hb hb' <;> bv_omega

/-- No signal is pending on the current process. -/
theorem senza_segnali {s : Kernel} (p : Pid) (Q : Word → Prop)
    (h : (s.des s.esecuzione).sigMask = 0) : s.SegnaliFuori p Q ∧ s.Consegna p [] := by
  have hno : ∀ q j fx, s.esecuzione = some q → ¬ s.Gestito q j fx := fun q j fx hq hg => by
    rw [hq] at h
    exact hg.mask h
  exact ⟨fun q j fx _ hq hg => absurd hg (hno q j fx hq), .nessuna fun hp j fx => hno p j fx hp⟩

/-- An interrupt of a process of level 3 without signals. -/
theorem passa_tick {img : Immagine} {p : Pid} {e : Word} {U V : Word → Prop} {m : Macchina}
    (hcpl : m.cpl ≠ 0) (hmask : (m.interruzione.salvaStato.kernel.des
      m.interruzione.salvaStato.kernel.esecuzione).sigMask = 0)
    (h : riesce (cdriverT m.interruzione.salvaStato.kernel) = true) :
    m.Passa img p e U V m.dopoTick [] := by
  obtain ⟨hs, hc⟩ := senza_segnali p (Riservati e U) hmask
  exact .tick (fun h => absurd h hcpl) hs hc (dopoTick_eq h)

/-- The process 2 has called `getPri`. -/
def dopoGetPri (pri : Word) : Macchina :=
  (alternati pri).dopoTick.dopoChiamata immagine (.getPri pri)

/-- What is known of the machine when the process 2 has got the CPU. -/
theorem alternati_secondo :
    riesce (cdriverT (alternati 0x5000).interruzione.salvaStato.kernel) = true ∧
      ((alternati 0x5000).interruzione.salvaStato.kernel.des
        (alternati 0x5000).interruzione.salvaStato.kernel.esecuzione).sigMask = 0 ∧
      (alternati 0x5000).dopoTick.kernel.esecuzione = some 2 ∧
      (alternati 0x5000).dopoTick.cpl = 3 ∧ (alternati 0x5000).dopoTick.base = 0x27FEC ∧
      (alternati 0x5000).dopoTick.cima = 8 ∧ (alternati 0x5000).dopoTick.reg.esp = 0x29000 := by
  refine ⟨?_, ?_, ?_, ?_, ?_, ?_, ?_⟩
  all_goals decide +kernel

/-- And when it has made its call. -/
theorem dopoGetPri_fatti :
    ((kiGetPri 0x5000 (syscalle immagine (alternati 0x5000).dopoTick.interruzione).2.kernel).des
      (kiGetPri 0x5000 (syscalle immagine
        (alternati 0x5000).dopoTick.interruzione).2.kernel).esecuzione).sigMask = 0 ∧
    riesce (Pitos.signalsCheck (dopo (esegui (.getPri 0x5000)
      (syscalle immagine (alternati 0x5000).dopoTick.interruzione).2.kernel))) = true ∧
    (dopoGetPri 0x5000).kernel.esecuzione = some 2 ∧ (dopoGetPri 0x5000).cpl ≠ 0 ∧
    ((dopoGetPri 0x5000).interruzione.salvaStato.kernel.des
      (dopoGetPri 0x5000).interruzione.salvaStato.kernel.esecuzione).sigMask = 0 ∧
    riesce (cdriverT (dopoGetPri 0x5000).interruzione.salvaStato.kernel) = true ∧
    (dopoGetPri 0x5000).dopoTick.kernel.esecuzione = some 1 := by
  refine ⟨?_, ?_, ?_, ?_, ?_, ?_, ?_⟩
  all_goals decide +kernel

theorem alternati_passa (U V : Word → Prop) :
    (alternati 0x5000).Passa immagine 1 0x20FEC U V (alternati 0x5000).dopoTick [] := by
  obtain ⟨hriesce, hmask, -⟩ := alternati_secondo
  exact passa_tick (by decide) hmask hriesce

theorem alternati_caricata : immagine.Caricata (alternati 0x5000).dopoTick.kernel.mem := by
  have hatt : (alternati 0x5000).Attende 1 (alternati 0x5000).reg 0x20FEC nucleo :=
    ⟨fun _ => rfl, fun h => absurd rfl h, by decide, by decide, alternati_lontani _,
      fun q hq => by obtain rfl := Option.some.inj hq; decide⟩
  obtain ⟨r', -, hp⟩ :=
    (alternati_passa nucleo nucleo).attende hatt rfl nucleo_discosto (fun _ hb => hb) (by simp)
  cases hp with
  | piano h =>
    refine (alternati_tabelle 0x5000).congr (P := fun b => ¬ intorno b)
      (fun b hb => h b (Or.inr (not_not.mp hb))) fun b hb hb' => hb' ?_
    rw [tabelle_length] at hb
    exact hb

theorem alternati_numero :
    (alternati 0x5000).dopoTick.Numero immagine ⟨.getPri, 1, 8⟩ := by
  obtain ⟨-, -, -, hcpl, hbase, hcima, hesp⟩ := alternati_secondo
  have hzona : ∀ b, (alternati 0x5000).dopoTick.Zona b → Mem.Within 0x27FD4 44 b := fun b hb => by
    unfold Macchina.Zona at hb
    rw [hbase, hcpl] at hb
    exact hb
  refine .di_cima (n := 4) (by decide) alternati_caricata ⟨fun b hb hz => ?_, fun b hb hz => ?_⟩
    (by decide) hcima (by decide)
  · replace hz := hzona b hz
    rw [tabelle_length] at hb
    replace hb : Mem.Within 0x32000 936 b := hb
    simp only [Mem.Within] at hb hz
    bv_omega
  · replace hz := hzona b hz
    rw [hesp] at hb
    simp only [Mem.Within] at hb hz
    bv_omega

theorem altrui_due {img : Immagine} {p : Pid} {e : Word} {U : Word → Prop} {m₁ m₂ m₃ : Macchina}
    (h : m₁.Altrui img p e U m₂ []) (h' : m₂.Altrui img p e U m₃ []) :
    Relation.ReflTransGen (fun m m' => m.Altrui img p e U m' []) m₁ m₃ :=
  .tail (.single h) h'

theorem altrui_tick {img : Immagine} {p q : Pid} {e : Word} {U : Word → Prop} {m : Macchina}
    (he : m.kernel.esecuzione = some q) (hq : q ≠ p) (hcpl : m.cpl ≠ 0)
    (hmask : (m.interruzione.salvaStato.kernel.des
      m.interruzione.salvaStato.kernel.esecuzione).sigMask = 0)
    (h : riesce (cdriverT m.interruzione.salvaStato.kernel) = true) :
    m.Altrui img p e U m.dopoTick [] := .entra he hq (passa_tick hcpl hmask h)

theorem alternati_chiama : (alternati 0x5000).dopoTick.Altrui immagine 1 0x20FEC nucleo
    (dopoGetPri 0x5000) [] := by
  obtain ⟨-, -, he, hcpl, -⟩ := alternati_secondo
  obtain ⟨hmask, hcheck, -⟩ := dopoGetPri_fatti
  have hsegnali := senza_segnali 1 (Riservati 0x20FEC nucleo)
    (s := kiGetPri 0x5000 (syscalle immagine (alternati 0x5000).dopoTick.interruzione).2.kernel) hmask
  refine .entra he (by decide) (.chiamata (c := .getPri 0x5000) alternati_numero rfl ?_ ?_ trivial
    rfl hsegnali.1 hsegnali.2 (signalsCheck_eq hcheck))
  · intro h
    rw [hcpl] at h
    exact absurd h (by decide)
  · intro b hb hr
    replace hb : Mem.Within 0x5000 4 b := hb
    replace hr : Mem.Within 0x20FEC 20 b ∨ _ := hr.imp id nucleo_posto
    rcases hr with hr | hr | hr <;> simp only [intorno, Mem.Within] at hb hr <;> bv_omega

/-- The process has called `__signalrespin`. -/
def dopoRespin : Macchina := (utente [(0x40000, 13)]).dopoChiamata immagine .signalrespin

end Pitos
