import Pitos.Machine.Delivery

/-!
# What the others leave to a process

While the process `p` is not running, what it goes on with is its context, the frame on its
system stack and its own memory. An entry by another process writes the context and the system
stack of that process, its call writes where its arguments point, a signal is put on its user
stack, and `carica_stato` pushes a word below its frame. None of this touches `p` as long as these
places are apart from what is kept for it (`Riservati`). The memory is flat, so this is about the
variables of the kernel too: the descriptors are values here, and nobody is to write where the
machine has them (`Nucleo`).

`Passa` is an entry that ends with `carica_stato`, by whichever process, and `Altrui` is what can
happen while `p` waits. `Passa.attende` and `Altrui.attende` say what each leaves of `p`.
-/

namespace Pitos

open Lib

/-! ## A process that waits -/

/-- What the kernel keeps for itself: the descriptors, and in `K` its other variables, its tables
and its code. -/
def Nucleo (l : Link) (K : Word → Prop) (b : Word) : Prop :=
  (∃ q : Pid, Mem.Within (indirizzo l (some q)) 216 b) ∨ K b

/-- `U` is apart from the system stack of `p`, where its frame is put and the C functions of its
entries have theirs. -/
def Discosto (e : Word) (U : Word → Prop) : Prop := ∀ b, U b → ¬ PilaSistema (e + 20) b

theorem Discosto.attorno {e b : Word} {U : Word → Prop} (h : Discosto e U) (hb : U b) :
    ¬ Mem.Within (e - 24) 44 b := by
  intro hb'
  have h44 : e - 24 = e + 20 - 44 := by bv_omega
  rw [h44] at hb'
  exact h b hb (.of_within hb' (by decide) (by decide))

theorem Discosto.telaio {e b : Word} {U : Word → Prop} (h : Discosto e U) (hb : U b) :
    ¬ SuTelaio e b := by
  intro hb'
  have h20 : e = e + 20 - 20 := by bv_omega
  rw [SuTelaio, h20] at hb'
  exact h b hb (.of_within hb' (by decide) (by decide))

/-- Code of level 0 is interrupted on the system stack of its process. -/
def Macchina.PilaPropria (m : Macchina) : Prop :=
  m.cpl = 0 → ∀ q, m.kernel.esecuzione = some q →
    ∀ b, Mem.Within (m.base - 24) 44 b → PilaSistema ((m.kernel.des (some q)).stk 0) b

/-- In the kernel: the process `p` of level 3 will go on with the registers `r`, and the others
are away from what is kept for it. -/
structure Kernel.Custodisce (s : Kernel) (p : Pid) (r : Registri) (e : Word) (U : Word → Prop) :
    Prop where
  sospeso : Sospeso p r e s
  livello : r.cs &&& 3 ≠ 0
  stk : (s.des (some p)).stk 0 = e + 20
  lontani : s.Lontani p (Riservati e U)

/-- Outside the kernel: `p` is running with the registers `r`, or it is to go on with them. -/
structure Macchina.Attende (m : Macchina) (p : Pid) (r : Registri) (e : Word)
    (U : Word → Prop) : Prop where
  reg : m.kernel.esecuzione = some p → m.reg = r
  sospeso : m.kernel.esecuzione ≠ some p → Sospeso p r e m.kernel
  livello : r.cs &&& 3 ≠ 0
  stk : (m.kernel.des (some p)).stk 0 = e + 20
  lontani : m.kernel.Lontani p (Riservati e U)
  tss : ∀ q, m.kernel.esecuzione = some q → m.kernel.tssEsp0 = (m.kernel.des (some q)).stk 0

section Attende

variable {p q : Pid} {U V : Word → Prop} {s t k : Kernel} {m c : Macchina} {r : Registri} {e : Word}
  {cs : List Attivazione}

theorem Macchina.zona_attorno {b : Word} (h : m.Zona b) : Mem.Within (m.base - 24) 44 b := by
  unfold Macchina.Zona at h
  apply h.mono
  split <;> omega

theorem Macchina.base_stk (hcpl : m.cpl ≠ 0) (htss : m.kernel.tssEsp0 = e + 20) : m.base = e := by
  rw [Macchina.base, if_neg hcpl, htss]
  bv_omega

namespace Macchina.Attende

/-- The stack on which another process enters the kernel. -/
theorem fuori (h : m.Attende p r e U) (he : m.kernel.esecuzione = some q) (hq : q ≠ p)
    (hz : m.PilaPropria) :
    ∀ b, Mem.Within (m.base - 24) 44 b → ¬ Riservati e U b := by
  intro b hb
  apply h.lontani.pila q hq b
  by_cases hcpl : m.cpl = 0
  · exact hz hcpl q he b hb
  · have h44 : (m.kernel.des (some q)).stk 0 - 20 - 24 = (m.kernel.des (some q)).stk 0 - 44 := by
      bv_omega
    rw [Macchina.base, if_neg hcpl, h.tss q he, h44] at hb
    exact .of_within hb (by decide) (by decide)

theorem base (h : m.Attende p r e U) (he : m.kernel.esecuzione = some p) : m.base = e := by
  refine Macchina.base_stk ?_ ((h.tss p he).trans h.stk)
  unfold Macchina.cpl
  rw [h.reg he]
  exact h.livello

/-- The way in, of `p` itself or of another process. -/
theorem entra (h : m.Attende p r e U) (he : m.kernel.esecuzione = some q) (hd : m.Dentro s)
    (hU : Discosto e U) (hz : m.PilaPropria) :
    s.Custodisce p r e U ∧ ∀ b, U b → s.mem b = m.kernel.mem b := by
  have hl := hd.lontani h.lontani he fun hq => h.fuori he hq hz
  have hstk : (s.des (some p)).stk 0 = e + 20 := by rw [hd.stk, h.stk]
  by_cases hq : q = p
  · subst hq
    have hs := hd.sospeso he
    rw [h.reg he, h.base he] at hs
    refine ⟨⟨hs, h.livello, hstk, hl⟩, fun b hb => hd.mem b fun hb' => ?_⟩
    have hb' := Macchina.zona_attorno hb'
    rw [h.base he] at hb'
    exact hU.attorno hb hb'
  · have hne : m.kernel.esecuzione ≠ some p := by
      rw [he]
      exact fun h => hq (Option.some.inj h)
    have hserba : m.kernel.Serba p (Riservati e U) s :=
      hd.serba hne fun b hb => h.fuori he hq hz b (Macchina.zona_attorno hb)
    exact ⟨⟨hserba.sospeso (fun b hb => Or.inl hb) (h.sospeso hne), h.livello, hstk, hl⟩,
      fun b hb => hserba.mem b (Or.inr hb)⟩

end Macchina.Attende

namespace Kernel.Custodisce

theorem serba (h : s.Custodisce p r e U) (hs : s.Serba p (Riservati e V) t)
    (hl : t.Lontani p (Riservati e U)) : t.Custodisce p r e U :=
  ⟨hs.sospeso (fun b hb => Or.inl hb) h.sospeso, h.livello, by rw [hs.stk, h.stk], hl⟩

/-- Other bytes of the memory do not count. -/
theorem conMem {x : Mem} (h : s.Custodisce p r e U) (hx : ∀ b, Riservati e U b → x b = s.mem b) :
    ({ s with mem := x } : Kernel).Custodisce p r e U :=
  ⟨h.sospeso.congr rfl fun b hb => hx b (Or.inl hb), h.livello, h.stk,
    h.lontani.of_intatti (.of_des rfl)⟩

theorem quieto (h : s.Custodisce p r e U) (hq : Quieto s t) : t.Custodisce p r e U :=
  h.serba (V := U) (.of_quieto hq) (h.lontani.of_intatti hq.intatti)

/-- The signals that are pending on the current process. -/
theorem segnali (h : s.Custodisce p r e U) (he : s.esecuzione = some q)
    (ht : (if (s.des s.esecuzione).sigMask ≠ 0 then handlesignals s else .ok s) = .ok t)
    (hc : s.Consegna p cs) (hs : s.SegnaliFuori p (Riservati e U)) (hU : Discosto e U)
    (hposto : ∀ a ∈ cs, ∀ b, Mem.Within (a.esp - 12) 12 b → U b) :
    ∃ r', t.Custodisce p r' e U ∧ Prosegue U U r s.mem cs r' t.mem := by
  have hl := h.lontani.of_intatti (pendenti_intatti ht)
  have hfuori : ∀ b, U b → ¬ SuTelaio e b := fun b hb => hU.telaio hb
  rcases cs with _ | ⟨a, _ | ⟨a', cs⟩⟩
  · have hserba := pendenti_serba he ht hc h.lontani hs
    exact ⟨r, h.serba hserba hl, .piano fun b hb => hserba.mem b (Or.inr hb)⟩
  · have hp := hposto a (List.mem_singleton.mpr rfl)
    obtain ⟨rfl, fx, param, hcons⟩ := pendenti_consegna h.sospeso h.livello ht hc
      fun b hb hb' => hfuori b (hp b hb) hb'
    refine ⟨_, ⟨hcons.sospeso, h.livello, ?_, hl⟩,
      .gestore rfl rfl (fun _ _ => rfl) hcons.eip fun b hb hb' => ?_⟩
    · rw [(pendenti_intatti ht _).2, h.stk]
    · exact hcons.altrove b fun h => h.elim hb' (hfuori b hb)
  · cases hc

/-- `carica_stato`. -/
theorem carica (h : k.Custodisce p r e U) (he : k.esecuzione ≠ none) (hU : Discosto e U)
    (c : Macchina) : (c.conKernel k).caricaStato.Attende p r e U ∧
      ∀ b, U b → (c.conKernel k).caricaStato.kernel.mem b = k.mem b := by
  have hker := Macchina.caricaStato_kernel (m := c.conKernel k)
  have hdes : (c.conKernel k).caricaStato.kernel.des = k.des := by
    rw [hker]
    rfl
  have hesec : (c.conKernel k).caricaStato.kernel.esecuzione = k.esecuzione := by
    rw [hker]
    rfl
  have hmem : ∀ b, ¬ Mem.Within ((c.conKernel k).espSalvato - 4) 4 b →
      (c.conKernel k).caricaStato.kernel.mem b = k.mem b := by
    rw [hker]
    exact fun b hb => (Mem.ChangesAt.refl k.mem).write32 (P := Mem.Within _ 4) (fun _ h => h) b hb
  have hsotto : ∀ {x b : Word}, Mem.Within (x - 4) 4 b → Mem.Within (x - 24) 44 b := by
    intro x b hb
    have h20 : x - 4 = x - 24 + 20 := by bv_omega
    rw [h20] at hb
    exact hb.of_offset (by decide)
  have hl : (c.conKernel k).caricaStato.kernel.Lontani p (Riservati e U) :=
    h.lontani.of_intatti fun x => by rw [hdes]; exact ⟨rfl, rfl⟩
  have htss : ∀ q, (c.conKernel k).caricaStato.kernel.esecuzione = some q →
      (c.conKernel k).caricaStato.kernel.tssEsp0 =
        ((c.conKernel k).caricaStato.kernel.des (some q)).stk 0 := by
    intro q hq
    rw [hesec] at hq
    rw [hker]
    show (k.des k.esecuzione).stk 0 = (k.des (some q)).stk 0
    rw [hq]
  have hstk : ((c.conKernel k).caricaStato.kernel.des (some p)).stk 0 = e + 20 := by
    rw [hdes, h.stk]
  obtain ⟨q, hq⟩ := Option.ne_none_iff_exists'.mp he
  have hesp : (c.conKernel k).espSalvato = (k.des (some q)).context iESP := by
    show (k.des k.esecuzione).context iESP = _
    rw [hq]
  by_cases hqp : q = p
  · subst hqp
    refine ⟨⟨fun _ => (h.sospeso.carica (m := c.conKernel k) hq h.livello).1, ?_, h.livello, hstk,
      hl, htss⟩, fun b hb => hmem b fun hb' => ?_⟩
    · exact fun hne => absurd (hesec.trans hq) hne
    · rw [hesp, h.sospeso.esp] at hb'
      exact hU.attorno hb (hsotto hb')
  · have hfar : ∀ b, Riservati e U b → (c.conKernel k).caricaStato.kernel.mem b = k.mem b :=
      fun b hb => hmem b fun hb' => by
        rw [hesp] at hb'
        exact h.lontani.esp q hqp b (hsotto hb') hb
    refine ⟨⟨fun hp => ?_, fun _ => ?_, h.livello, hstk, hl, htss⟩, fun b hb => hfar b (Or.inr hb)⟩
    · rw [hesec, hq] at hp
      exact absurd (Option.some.inj hp) hqp
    · exact h.sospeso.congr (by rw [hdes]) fun b hb => hfar b (Or.inl hb)

end Kernel.Custodisce

/-! ## The functions of the kernel -/

/-- A process that the call activates is another one than `p`, and its system stack is outside
`Q`. -/
def Chiamata.Discosta (c : Chiamata) (s : Kernel) (p : Pid) (Q : Word → Prop) : Prop :=
  match c with
  | .activateP _ _ _ _ _ stk => s.cercaLibero ≠ some p ∧ ∀ b, PilaSistema (stk 0) b → ¬ Q b
  | _ => True

namespace Kernel.Custodisce

theorem attiva {f g : Word} {prec level : Int} {idx risu : Word} {stk : Fin 3 → Word}
    (h : s.Custodisce p r e U) (ht : kiActivatePLevel f g prec level idx risu stk s = .ok t)
    (hw : ∀ b, (Chiamata.activateP f g prec idx risu stk).Scrive s b → ¬ Riservati e V b)
    (hn : (Chiamata.activateP f g prec idx risu stk).Discosta s p (Riservati e U)) :
    t.Custodisce p r e U ∧ ∀ b, V b → t.mem b = s.mem b := by
  obtain ⟨hp, hstk⟩ := hn
  have hch := kiActivatePLevel_changes ht
  have hdes := kiActivatePLevel_descrittori ht
  have hmem : ∀ b, Riservati e V b → t.mem b = s.mem b := fun b hb => hch b fun hb' => hw b hb' hb
  have hserba : s.Serba p (Riservati e V) t := by
    rcases hdes (some p) with ⟨hcontext, hpile⟩ | ⟨hlibero, -⟩
    · exact ⟨hcontext, hpile, hmem⟩
    · exact absurd hlibero.symm hp
  refine ⟨h.serba hserba ⟨fun x hx b hb => ?_, fun x hx b hb => ?_⟩, fun b hb => hmem b (Or.inr hb)⟩
  · rcases hdes (some x) with ⟨-, hpile⟩ | ⟨-, -, hpile⟩
    · rw [hpile] at hb
      exact h.lontani.pila x hx b hb
    · rw [hpile] at hb
      exact hstk b hb
  · rcases hdes (some x) with ⟨hcontext, -⟩ | ⟨-, hesp, -⟩
    · rw [hcontext] at hb
      exact h.lontani.esp x hx b hb
    · have h44 : stk 0 - 20 - 24 = stk 0 - 44 := by bv_omega
      rw [hesp, h44] at hb
      exact hstk b (.of_within hb (by decide) (by decide))

/-- A `ki_` function called by whichever process. -/
theorem esegui {x : Chiamata} (h : s.Custodisce p r e U) (ht : Pitos.esegui x s = .ok t)
    (hw : ∀ b, x.Scrive s b → ¬ Riservati e V b) (hn : x.Discosta s p (Riservati e U)) :
    t.Custodisce p r e U ∧ ∀ b, V b → t.mem b = s.mem b := by
  by_cases ha : (Evento.chiamata x).Attiva
  · cases x with
    | activateP f g prec idx risu stk => exact h.attiva ht hw hn
    | _ => cases ha
  · have hi := esegui_intatti ht ha
    have hmem : ∀ b, Riservati e V b → t.mem b = s.mem b := fun b hb =>
      esegui_scrive ht b fun hb' => hw b hb' hb
    exact ⟨h.serba (.of_intatti hi hmem) (h.lontani.of_intatti hi), fun b hb => hmem b (Or.inr hb)⟩

end Kernel.Custodisce

/-- The deliveries are the same when only other fields of the descriptors have changed. -/
theorem Kernel.Consegna.congr (h : s.Consegna p cs) (hq : Quieto s t)
    (he : t.esecuzione = s.esecuzione) : t.Consegna p cs := by
  cases h with
  | nessuna hno =>
    refine .nessuna fun hp j fx hg => hno (he ▸ hp) j fx ?_
    have hd := hq.conservati (some p)
    exact ⟨hd.sigMask.symm ▸ hg.primo, hd.sigHandlers.symm ▸ hg.gestore, hg.funzione⟩
  | una hp hg =>
    have hatt : s.attivazione p = t.attivazione p := by
      unfold Kernel.attivazione
      rw [(hq.conservati (some p)).context, hq.mem]
    rw [hatt]
    exact .una (he.trans hp) (hg.congr (hq.conservati (some p)))

theorem Kernel.SegnaliFuori.congr {Q : Word → Prop} (h : s.SegnaliFuori p Q) (hq : Quieto s t)
    (he : t.esecuzione = s.esecuzione) : t.SegnaliFuori p Q := by
  intro x j fx hx hx' hg b hb
  have hd := hq.conservati (some x)
  rw [hd.context, hq.mem] at hb
  exact h x j fx hx (he ▸ hx')
    ⟨hd.sigMask.symm ▸ hg.primo, hd.sigHandlers.symm ▸ hg.gestore, hg.funzione⟩ b hb

theorem Kernel.Custodisce.cdriverT (h : s.Custodisce p r e U) (he : s.esecuzione = some q)
    (ht : Pitos.cdriverT s = .ok t) (hc : s.Consegna p cs)
    (hs : s.SegnaliFuori p (Riservati e U)) (hU : Discosto e U)
    (hposto : ∀ a ∈ cs, ∀ b, Mem.Within (a.esp - 12) 12 b → U b) :
    t.esecuzione ≠ none ∧ ∃ r', t.Custodisce p r' e U ∧ Prosegue U U r s.mem cs r' t.mem := by
  obtain ⟨s₂, h₂, ht⟩ := bind_ok ht
  obtain ⟨s₃, h₃, ht⟩ := bind_ok ht
  have he₂ : s₂.esecuzione = s.esecuzione := (scadenze_code h₂).esecuzione
  let s₄ := s₂.aggiorna s₂.esecuzione DesProc.contato
  have hq : Quieto s s₄ := (scadenze_quieto h₂).trans
    (.aggiorna s₂ s₂.esecuzione (f := DesProc.contato) fun _ => ⟨rfl, rfl, rfl, rfl, rfl⟩)
  have he₄ : s₄.esecuzione = s.esecuzione := he₂
  have hne : s₄.esecuzione ≠ none := by
    rw [he₄, he]
    rintro ⟨⟩
  obtain ⟨r', h', hp⟩ := (h.quieto hq).segnali (he₄.trans he) h₃ (hc.congr hq he₄)
    (hs.congr hq he₄) hU hposto
  refine ⟨turno_corrente ht (pendenti_corrente h₃ hne), r', h'.quieto (turno_quieto ht), ?_⟩
  rw [(turno_quieto ht).mem]
  exact hp.prima fun b _ => by rw [hq.mem]

/-- The way out of a call. -/
theorem Kernel.Custodisce.check (h : t.Custodisce p r e U) (c : Macchina) {m' : Macchina}
    (ht : (c.conKernel t).signalsCheck = .ok m') (hc : t.Consegna p cs)
    (hs : t.SegnaliFuori p (Riservati e U)) (hU : Discosto e U)
    (hposto : ∀ a ∈ cs, ∀ b, Mem.Within (a.esp - 12) 12 b → U b) :
    ∃ r', m'.Attende p r' e U ∧ Prosegue U U r t.mem cs r' m'.kernel.mem := by
  obtain ⟨u, hu, hm'⟩ := bind_ok ht
  obtain rfl := Except.ok.inj hm'
  have hu : Pitos.signalsCheck t = .ok u := hu
  unfold Pitos.signalsCheck at hu
  split at hu
  · cases hu
  · rename_i hne
    obtain ⟨q, hq⟩ := Option.ne_none_iff_exists'.mp hne
    obtain ⟨r', h', hp⟩ := h.segnali hq hu hc hs hU hposto
    obtain ⟨hatt, hmem⟩ := h'.carica (pendenti_corrente hu hne) hU (c.conKernel t)
    exact ⟨r', hatt, hp.dopo hmem (fun _ hb => hb) hposto⟩

end Attende

/-- The system stack that starts at `x`, without the frame of an interrupt of level 3. -/
def Sotto (x b : Word) : Prop := PilaSistema x b ∧ ¬ SuTelaio (x - 20) b

/-! ## Entries -/

/-- An entry of the current process that ends with `carica_stato`: an interrupt of the timer or a
system call, with the deliveries that it makes to `p`. The arguments of the call do not point to
the frame of `p` nor to `V`. -/
inductive Macchina.Passa (img : Immagine) (p : Pid) (e : Word) (U V : Word → Prop) :
    Macchina → Macchina → List Attivazione → Prop
  | tick {m m' : Macchina} {cs : List Attivazione} (hz : m.PilaPropria)
      (hs : m.interruzione.salvaStato.kernel.SegnaliFuori p (Riservati e U))
      (hc : m.interruzione.salvaStato.kernel.Consegna p cs)
      (h : m.interruzione.acdriverT = .ok m') : Passa img p e U V m m' cs
  | chiamata {m m' : Macchina} {cs : List Attivazione} {d : Dichiarazione} {c : Chiamata}
      {t : Kernel} (hd : m.Numero img d) (hnome : d.nome = c.nome)
      (hz : m.PilaPropria)
      (hw : ∀ b, c.Scrive (syscalle img m.interruzione).2.kernel b → ¬ Riservati e V b)
      (hn : c.Discosta (syscalle img m.interruzione).2.kernel p (Riservati e U))
      (h : esegui c (syscalle img m.interruzione).2.kernel = .ok t)
      (hs : t.SegnaliFuori p (Riservati e U)) (hc : t.Consegna p cs)
      (h' : ((syscalle img m.interruzione).2.conKernel t).signalsCheck = .ok m') :
      Passa img p e U V m m' cs

/-- A step of the machine that is not one of `p`. -/
inductive Macchina.Altrui (img : Immagine) (p : Pid) (e : Word) (U : Word → Prop) :
    Macchina → Macchina → List Attivazione → Prop
  | entra {m m' : Macchina} {q : Pid} {cs : List Attivazione} (he : m.kernel.esecuzione = some q)
      (hq : q ≠ p) (h : Macchina.Passa img p e U U m m' cs) : Altrui img p e U m m' cs
  /-- What the C functions of an entry have left on the system stack of the process `q`, which may
  be `p` itself, below its frame. -/
  | residui {m : Macchina} (q : Pid) {x : Mem}
      (hx : ∀ b, ¬ Sotto ((m.kernel.des (some q)).stk 0) b → x b = m.kernel.mem b) :
      Altrui img p e U m ⟨m.reg, { m.kernel with mem := x }⟩ []
  /-- Instructions of the process. -/
  | programma {m : Macchina} (he : m.kernel.esecuzione ≠ some p) (reg : Registri) {x : Mem}
      (hx : ∀ b, Riservati e U b → x b = m.kernel.mem b) :
      Altrui img p e U m ⟨reg, { m.kernel with mem := x }⟩ []
  /-- A call number without a function: the process stays in `badSysCall`. -/
  | errata {m : Macchina} {q : Pid} (he : m.kernel.esecuzione = some q) (hq : q ≠ p)
      (hz : m.PilaPropria) (h : (syscalle img m.interruzione).1 = .badSysCall)
      (reg : Registri) {x : Mem}
      (hx : ∀ b, Riservati e U b → x b = (syscalle img m.interruzione).2.kernel.mem b) :
      Altrui img p e U m ⟨reg, { (syscalle img m.interruzione).2.kernel.logShow with mem := x }⟩ []
  /-- An interrupt of the keyboard. -/
  | tasto {m : Macchina} (he : m.kernel.esecuzione ≠ some p) (code : BitVec 8) (reg : Registri)
      {x : Mem} (hx : ∀ b, Riservati e U b → x b = m.kernel.mem b) :
      Altrui img p e U m ⟨reg, loggingKbCallback code { m.kernel with mem := x }⟩ []
  /-- An interrupt of the keyboard while `p` itself is running. -/
  | tastoProprio {m : Macchina} (he : m.kernel.esecuzione = some p) (code : BitVec 8) {x : Mem}
      (hx : ∀ b, ¬ PilaSistema (e + 20) b → x b = m.kernel.mem b) :
      Altrui img p e U m ⟨m.reg, loggingKbCallback code { m.kernel with mem := x }⟩ []
  /-- The process fails, and `handlerNoCode` ends it. -/
  | eccezione {m : Macchina} {q : Pid} {k : Kernel} (he : m.kernel.esecuzione = some q) (hq : q ≠ p)
      (c : Macchina) {x : Mem} (hx : ∀ b, Riservati e U b → x b = m.kernel.mem b)
      (h : kiTerminateP ({ m.kernel with mem := x } : Kernel).logShow = .ok k) :
      Altrui img p e U m (c.conKernel k).caricaStato []
  /-- `cmain` activates another process. -/
  | attiva {m : Macchina} {k : Kernel} (he : m.kernel.esecuzione = none) (reg : Registri) {x : Mem}
      (hx : ∀ b, Riservati e U b → x b = m.kernel.mem b) {f g : Word} {prec level : Int}
      {idx risu : Word} {stk : Fin 3 → Word}
      (hw : ∀ b, (Chiamata.activateP f g prec idx risu stk).Scrive { m.kernel with mem := x } b →
        ¬ Riservati e U b)
      (hn : (Chiamata.activateP f g prec idx risu stk).Discosta { m.kernel with mem := x } p
        (Riservati e U))
      (h : kiActivatePLevel f g prec level idx risu stk { m.kernel with mem := x } = .ok k) :
      Altrui img p e U m ⟨reg, k⟩ []
  /-- `cmain` initializes a semaphore. -/
  | semIni {m : Macchina} (he : m.kernel.esecuzione = none) (reg : Registri) {x : Mem}
      (hx : ∀ b, Riservati e U b → x b = m.kernel.mem b) {valore : Int} {idx risu : Word}
      (hw : ∀ b, (Chiamata.semIni valore idx risu).Scrive { m.kernel with mem := x } b →
        ¬ Riservati e U b) :
      Altrui img p e U m ⟨reg, kiSemIni valore idx risu { m.kernel with mem := x }⟩ []
  /-- `kernel_go`. -/
  | go {m : Macchina} (he : m.kernel.esecuzione = none) (c : Macchina) {x : Mem}
      (hx : ∀ b, Riservati e U b → x b = m.kernel.mem b)
      (h : (schedulatore { m.kernel with mem := x }).esecuzione ≠ none) :
      Altrui img p e U m (c.conKernel (schedulatore { m.kernel with mem := x })).caricaStato []

section Passi

variable {img : Immagine} {p q : Pid} {U V : Word → Prop} {m m' : Macchina} {r : Registri}
  {e : Word} {cs : List Attivazione}

/-- An entry, by `p` itself or by another process. -/
theorem Macchina.Passa.attende (h : m.Passa img p e U V m' cs) (hm : m.Attende p r e U)
    (he : m.kernel.esecuzione = some q) (hU : Discosto e U) (hVU : ∀ b, V b → U b)
    (hposto : ∀ a ∈ cs, ∀ b, Mem.Within (a.esp - 12) 12 b → U b) :
    ∃ r', m'.Attende p r' e U ∧ Prosegue V U r m.kernel.mem cs r' m'.kernel.mem := by
  cases h with
  | tick hz hs hc h =>
    obtain ⟨k, hk, hm'⟩ := bind_ok h
    obtain rfl := Except.ok.inj hm'
    have hd := (Macchina.entrata (m := m)).dentro
    obtain ⟨hcus, hmem⟩ := hm.entra he hd hU hz
    obtain ⟨hne, r', hk', hp⟩ := hcus.cdriverT (hd.esecuzione.trans he) hk hc hs hU hposto
    obtain ⟨hatt, hmem'⟩ := hk'.carica hne hU m.interruzione.salvaStato
    exact ⟨r', hatt, ((hp.prima hmem).dopo hmem' (fun _ hb => hb) hposto).mono hVU⟩
  | chiamata hd hnome hz hw hn h hs hc h' =>
    obtain ⟨hcus, hmem⟩ := hm.entra he (syscalle_dentro hd).2 hU hz
    obtain ⟨ht, hmem'⟩ := hcus.esegui h hw hn
    obtain ⟨r', hatt, hp⟩ := ht.check _ h' hc hs hU hposto
    exact ⟨r', hatt, (hp.mono hVU).prima fun b hb => (hmem' b hb).trans (hmem b (hVU b hb))⟩

/-- The kernel in which another process than `p` is running. -/
theorem Macchina.Attende.custodisce (h : m.Attende p r e U) (he : m.kernel.esecuzione ≠ some p)
    {x : Mem} (hx : ∀ b, Riservati e U b → x b = m.kernel.mem b) :
    ({ m.kernel with mem := x } : Kernel).Custodisce p r e U :=
  Kernel.Custodisce.conMem ⟨h.sospeso he, h.livello, h.stk, h.lontani⟩ hx

theorem Kernel.Custodisce.attende {k : Kernel} (h : k.Custodisce p r e U)
    (he : k.esecuzione ≠ some p)
    (htss : ∀ q, k.esecuzione = some q → k.tssEsp0 = (k.des (some q)).stk 0) (reg : Registri) :
    Macchina.Attende ⟨reg, k⟩ p r e U :=
  ⟨fun hp => absurd hp he, fun _ => h.sospeso, h.livello, h.stk, h.lontani, htss⟩

/-- Nobody has the CPU. -/
theorem Kernel.Custodisce.attende_nessuno {k : Kernel} (h : k.Custodisce p r e U)
    (he : k.esecuzione = none) (reg : Registri) : Macchina.Attende ⟨reg, k⟩ p r e U := by
  apply h.attende
  · rw [he]
    rintro ⟨⟩
  · intro q hq
    rw [he] at hq
    cases hq

theorem loggingKbCallback_intatti (code : BitVec 8) (s : Kernel) :
    Intatti s (loggingKbCallback code s) ∧ (loggingKbCallback code s).mem = s.mem ∧
      (loggingKbCallback code s).esecuzione = s.esecuzione ∧
      (loggingKbCallback code s).tssEsp0 = s.tssEsp0 := by
  refine ⟨passo_intatti (e := .tasto code) rfl (by rintro ⟨⟩), ?_⟩
  unfold loggingKbCallback kiRaise
  simp only
  split
  · exact ⟨rfl, rfl, rfl⟩
  · split
    · split <;> exact ⟨rfl, rfl, rfl⟩
    · exact ⟨rfl, rfl, rfl⟩

theorem kiSemIni_esecuzione (valore : Int) (idx risu : Word) (s : Kernel) :
    (kiSemIni valore idx risu s).esecuzione = s.esecuzione := by
  unfold kiSemIni
  split <;> rfl

/-- What is kept for `p` is apart from the system stacks, its own one below the frame included. -/
theorem Macchina.Attende.sotto (h : m.Attende p r e U) (hU : Discosto e U) {b : Word}
    (hb : Sotto ((m.kernel.des (some q)).stk 0) b) : ¬ Riservati e U b := by
  obtain ⟨hpila, hsotto⟩ := hb
  by_cases hq : q = p
  · subst hq
    have he : e + 20 - 20 = e := by bv_omega
    rw [h.stk] at hpila
    rw [h.stk, he] at hsotto
    intro hr
    rcases hr with hr | hr
    · exact hsotto hr
    · exact hU b hr hpila
  · exact h.lontani.pila q hq b hpila

/-- A step of another process, or of none. -/
theorem Macchina.Altrui.attende (h : m.Altrui img p e U m' cs) (hm : m.Attende p r e U)
    (hU : Discosto e U) (hposto : ∀ a ∈ cs, ∀ b, Mem.Within (a.esp - 12) 12 b → U b) :
    ∃ r', m'.Attende p r' e U ∧ Prosegue U U r m.kernel.mem cs r' m'.kernel.mem := by
  have hne : ∀ {q : Pid}, m.kernel.esecuzione = some q → q ≠ p → m.kernel.esecuzione ≠ some p :=
    fun he hq hp => hq (Option.some.inj (he.symm.trans hp))
  have hnone : m.kernel.esecuzione = none → m.kernel.esecuzione ≠ some p := fun he hp => by
    rw [he] at hp
    cases hp
  cases h with
  | entra he hq h => exact h.attende hm he hU (fun _ hb => hb) hposto
  | residui q hx =>
    rename_i x
    have hx' : ∀ b, Riservati e U b → x b = m.kernel.mem b := fun b hb =>
      hx b fun hs => hm.sotto hU hs hb
    refine ⟨r, ⟨hm.reg, fun he => ?_, hm.livello, hm.stk, hm.lontani.of_intatti (.of_des rfl),
      hm.tss⟩, .piano fun b hb => hx' b (Or.inr hb)⟩
    exact (hm.sospeso he).congr rfl fun b hb => hx' b (Or.inl hb)
  | programma he reg hx =>
    exact ⟨r, (hm.custodisce he hx).attende he hm.tss reg, .piano fun b hb => hx b (Or.inr hb)⟩
  | errata he hq hz h reg hx =>
    have hd := syscalle_errata h
    obtain ⟨hcus, hmem⟩ := hm.entra he hd hU hz
    have hesec := hd.esecuzione
    refine ⟨r, ?_, .piano fun b hb => (hx b (Or.inr hb)).trans (hmem b hb)⟩
    have hlog := hcus.quieto (t := (syscalle img m.interruzione).2.kernel.logShow)
      (.of_des rfl rfl rfl)
    refine (hlog.conMem hx).attende ?_ (fun q hq' => ?_) reg
    · exact fun hp => hne he hq (hesec.symm.trans hp)
    · exact (hd.tss.trans (hm.tss q (hesec.symm.trans hq'))).trans
        (congrFun (hd.stk (some q)).symm 0)
  | tasto he code reg hx =>
    rename_i x
    obtain ⟨hi, hmem, hesec, htss⟩ := loggingKbCallback_intatti code { m.kernel with mem := x }
    have hcus := (hm.custodisce he hx).serba (V := U) (.of_intatti hi fun b _ => by rw [hmem])
      ((hm.custodisce he hx).lontani.of_intatti hi)
    refine ⟨r, hcus.attende (fun hp => he (hesec.symm.trans hp)) (fun q hq => ?_) reg,
      .piano fun b hb => ?_⟩
    · exact (htss.trans (hm.tss q (hesec.symm.trans hq))).trans (congrFun (hi (some q)).2.symm 0)
    · rw [hmem]
      exact hx b (Or.inr hb)
  | tastoProprio he code hx =>
    rename_i x
    obtain ⟨hi, hmem, hesec, htss⟩ := loggingKbCallback_intatti code { m.kernel with mem := x }
    have he' : (loggingKbCallback code { m.kernel with mem := x }).esecuzione = some p :=
      hesec.trans he
    refine ⟨r, ⟨fun _ => hm.reg he, fun hne => absurd he' hne, hm.livello, ?_,
      hm.lontani.of_intatti hi, fun q hq => ?_⟩, .piano fun b hb => ?_⟩
    · exact (congrFun (hi (some p)).2 0).trans hm.stk
    · exact (htss.trans (hm.tss q (hesec.symm.trans hq))).trans (congrFun (hi (some q)).2.symm 0)
    · rw [hmem]
      exact hx b (hU b hb)
  | eccezione he hq c hx h =>
    have hqt := kiTerminateP_quieto h
    rename_i x
    have hcus := ((hm.custodisce (hne he hq) hx).quieto
      (t := ({ m.kernel with mem := x } : Kernel).logShow) (.of_des rfl rfl rfl)).quieto hqt
    have hcor := kiTerminateP_corrente h (by rw [Kernel.logShow, he]; rintro ⟨⟩)
    obtain ⟨hatt, hmem⟩ := hcus.carica hcor hU c
    refine ⟨r, hatt, .piano fun b hb => (hmem b hb).trans ?_⟩
    rw [hqt.mem]
    exact hx b (Or.inr hb)
  | attiva he reg hx hw hn h =>
    obtain ⟨hcus, hmem⟩ := (hm.custodisce (hnone he) hx).attiva h hw hn
    have hesec := (kiActivatePLevel_code h).esecuzione.trans he
    exact ⟨r, hcus.attende_nessuno hesec reg,
      .piano fun b hb => (hmem b hb).trans (hx b (Or.inr hb))⟩
  | semIni he reg hx hw =>
    obtain ⟨hcus, hmem⟩ := (hm.custodisce (hnone he) hx).esegui (x := .semIni _ _ _) rfl hw trivial
    rename_i x valore idx risu
    have hesec := (kiSemIni_esecuzione valore idx risu { m.kernel with mem := x }).trans he
    exact ⟨r, hcus.attende_nessuno hesec reg,
      .piano fun b hb => (hmem b hb).trans (hx b (Or.inr hb))⟩
  | go he c hx h =>
    rename_i x
    have hq := schedulatore_quieto { m.kernel with mem := x }
    obtain ⟨hatt, hmem⟩ := ((hm.custodisce (hnone he) hx).quieto hq).carica h hU c
    refine ⟨r, hatt, .piano fun b hb => (hmem b hb).trans ?_⟩
    rw [hq.mem]
    exact hx b (Or.inr hb)

end Passi

end Pitos
