import Pitos.Machine.Passage
import Pitos.Properties.Activation
import Pitos.Properties.Syscalls

/-!
# The function of a process and its return

`ki_activate_p_level` fills the stacks so that `iret` enters the function of the process with
its parameter (`Nuovo.entra`). A function of level 3 returns to the stub `terminate_p`, so that
`ki_terminate_p` is reached through `syscalle` and another process is loaded after it. A
function of another level returns to `ki_terminate_p` itself, which returns in its turn: the
word above its return address is the parameter.
-/

namespace Pitos

open Lib

/-! ## The words on the new stacks -/

/-- The frame on the system stack. -/
def paroleSistema (s : Kernel) (f h : Word) (level : Int) (stk : Fin 3 → Word) : List Word :=
  if level = 3 then [f, USERCODESEL, 1 <<< 9, stk 2 - 8, USERDSSEL]
  else [f, SYSTEMCODESEL, 1 <<< 9, s.link.kiTerminateP, h]

theorem quarta (e : Word) : e + 4 + 4 = e + 8 ∧ e + 8 + 4 = e + 12 ∧ e + 12 + 4 = e + 16 := by
  refine ⟨?_, ?_, ?_⟩ <;> bv_omega

theorem pilaIniziale_eq (s : Kernel) (f h : Word) (level : Int) (stk : Fin 3 → Word) :
    s.pilaIniziale f h level stk =
      (if level = 3 then s.mem.writeWords (stk 2 - 8) [s.link.terminateP, h] else s.mem).writeWords
        (stk 0 - 20) (paroleSistema s f h level stk) := by
  obtain ⟨h8, h12, h16⟩ := quarta (stk 0 - 20)
  unfold Kernel.pilaIniziale paroleSistema
  by_cases hl : level = 3
  · simp only [if_pos hl, Mem.writeWords, h8, h12, h16]
  · simp only [if_neg hl, Mem.writeWords, h8, h12, h16]

section Pile

variable {s : Kernel} {f h w : Word} {level : Int} {stk : Fin 3 → Word} {i : Nat}

theorem paroleSistema_length : (paroleSistema s f h level stk).length = 5 := by
  unfold paroleSistema
  split <;> rfl

theorem pilaIniziale_sistema (hw : (paroleSistema s f h level stk)[i]? = some w) :
    (s.pilaIniziale f h level stk).read32 (stk 0 - 20 + BitVec.ofNat 32 (4 * i)) = w := by
  rw [pilaIniziale_eq]
  exact Mem.read32_writeWords hw (by rw [paroleSistema_length]; decide)

/-- The two stacks are apart, so the frame does not touch the words on the user stack. -/
theorem pilaIniziale_utente (hsep : PileSeparate stk) (hl : level = 3)
    (hw : [s.link.terminateP, h][i]? = some w) :
    (s.pilaIniziale f h level stk).read32 (stk 2 - 8 + BitVec.ofNat 32 (4 * i)) = w := by
  have hi : i < 2 := (List.getElem?_eq_some_iff.mp hw).1
  rw [pilaIniziale_eq, if_pos hl, (Mem.writeWords_changes _ _ _ _).read32,
    Mem.read32_writeWords hw (show 4 * 2 < 2 ^ 32 by decide)]
  · intro b hb hb'
    rw [paroleSistema_length] at hb'
    have h2 : stk 2 - 8 + BitVec.ofNat 32 (4 * i) =
        stk 2 - 4096 + (4088 + BitVec.ofNat 32 (4 * i)) := by bv_omega
    have h0 : stk 0 - 20 = stk 0 - 4096 + 4076 := by bv_omega
    rw [h2] at hb
    rw [h0] at hb'
    refine hsep b (hb'.of_offset (by decide)) (hb.of_offset ?_)
    have hsum : (4088 + BitVec.ofNat 32 (4 * i) : Word).toNat = 4088 + 4 * i := by bv_omega
    omega
  · rw [paroleSistema_length]
    decide

end Pile

/-! ## The first dispatch -/

/-- What an activation that succeeds leaves of the new process `p`. -/
structure Attivata (s t : Kernel) (f h : Word) (level : Int) (risu : Word) (stk : Fin 3 → Word)
    (p : Pid) : Prop where
  link : t.link = s.link
  context : (t.des (some p)).context = registriIniziali (stk 0 - 20) (s.des (some p)).context
  mem : ∃ s₁, s₁.link = s.link ∧ ∀ b, b ≠ risu →
    t.mem b = Kernel.pilaIniziale s₁ f h (clamp level 0 3) stk b

theorem inserisciPronti_resto {s t : Kernel} {p : DesPtr} (h : s.inserisciPronti p = .ok t) :
    t.link = s.link ∧ t.mem = s.mem := by
  unfold Kernel.inserisciPronti at h
  split at h
  · cases h
  · obtain rfl := Except.ok.inj h
    exact ⟨rfl, rfl⟩

/-- The answer 1 means that the table was not full. -/
theorem kiActivatePLevel_posto {s t : Kernel} {f h : Word} {prec level : Int} {idx risu : Word}
    {stk : Fin 3 → Word} (heq : kiActivatePLevel f h prec level idx risu stk s = .ok t)
    (hrisu : t.mem risu = 1) : s.procCount ≠ MAXPROCS := by
  intro hfull
  simp only [kiActivatePLevel, hfull, if_true] at heq
  obtain rfl := Except.ok.inj heq
  simp [Mem.write8] at hrisu

theorem kiActivatePLevel_attivata {s t : Kernel} {f h : Word} {prec level : Int} {idx risu : Word}
    {stk : Fin 3 → Word} {p : Pid} (hp : s.cercaLibero = some p)
    (heq : kiActivatePLevel f h prec level idx risu stk s = .ok t) (hrisu : t.mem risu = 1) :
    Attivata s t f h level risu stk p := by
  have hlt := kiActivatePLevel_posto heq hrisu
  have hcontext := congrArg DesProc.context (kiActivatePLevel_nuovo hlt hp heq)
  rw [kiActivatePLevel_libero hlt hp] at heq
  obtain ⟨s₁, h₁, h₂⟩ := bind_ok heq
  obtain ⟨hlink, hmem⟩ := inserisciPronti_resto h₁
  obtain rfl := Except.ok.inj h₂
  refine ⟨hlink, hcontext, (s.assegna idx p).aggiorna (some p) fun d =>
    { d with stk, next := none, stato := .PRONTO }, rfl, fun b hb => ?_⟩
  change (s₁.mem.write8 risu 1) b = _
  rw [Mem.write8, if_neg hb, hmem]
  rfl

/-- `carica_stato` is about to start the process `p` that `ki_activate_p_level` left in `t`: its
context and the frames on its stacks are as they were. -/
structure Macchina.Nuovo (m : Macchina) (t : Kernel) (p : Pid) (stk : Fin 3 → Word) : Prop where
  esecuzione : m.kernel.esecuzione = some p
  link : m.kernel.link = t.link
  context : (m.kernel.des (some p)).context = (t.des (some p)).context
  pile : ∀ b, PileNuove stk b → m.kernel.mem b = t.mem b

/-- What `iret` and the function find on the stacks of the new process. -/
structure Pila (x : Mem) (l : Link) (f h : Word) (level : Int) (stk : Fin 3 → Word) : Prop where
  eip : x.read32 (stk 0 - 20) = f
  cs : x.read32 (stk 0 - 20 + 4) = if level = 3 then USERCODESEL else SYSTEMCODESEL
  esp : level = 3 → x.read32 (stk 0 - 20 + 12) = stk 2 - 8
  ritorno : x.read32 (if level = 3 then stk 2 - 8 else stk 0 - 8) =
    if level = 3 then l.terminateP else l.kiTerminateP
  parametro : x.read32 (if level = 3 then stk 2 - 4 else stk 0 - 4) = h

theorem pilaIniziale_pila (s : Kernel) (f h : Word) (level : Int) {stk : Fin 3 → Word}
    (hsep : PileSeparate stk) : Pila (s.pilaIniziale f h level stk) s.link f h level stk := by
  have h0 : stk 0 - 20 + BitVec.ofNat 32 (4 * 0) = stk 0 - 20 := by bv_omega
  have h1 : stk 0 - 20 + BitVec.ofNat 32 (4 * 1) = stk 0 - 20 + 4 := by bv_omega
  by_cases hl : level = 3
  · have hsis : ∀ {i : Nat} {w : Word},
        [f, USERCODESEL, 1 <<< 9, stk 2 - 8, USERDSSEL][i]? = some w →
          (s.pilaIniziale f h level stk).read32 (stk 0 - 20 + BitVec.ofNat 32 (4 * i)) = w :=
      fun hw => pilaIniziale_sistema (by rw [paroleSistema, if_pos hl]; exact hw)
    have h3 : stk 0 - 20 + BitVec.ofNat 32 (4 * 3) = stk 0 - 20 + 12 := by bv_omega
    have u0 : stk 2 - 8 + BitVec.ofNat 32 (4 * 0) = stk 2 - 8 := by bv_omega
    have u1 : stk 2 - 8 + BitVec.ofNat 32 (4 * 1) = stk 2 - 4 := by bv_omega
    refine ⟨?_, ?_, fun _ => ?_, ?_, ?_⟩
    · rw [← h0]
      exact hsis rfl
    · rw [← h1, if_pos hl]
      exact hsis rfl
    · rw [← h3]
      exact hsis rfl
    · rw [if_pos hl, if_pos hl, ← u0]
      exact pilaIniziale_utente hsep hl rfl
    · rw [if_pos hl, ← u1]
      exact pilaIniziale_utente hsep hl rfl
  · have hsis : ∀ {i : Nat} {w : Word},
        [f, SYSTEMCODESEL, 1 <<< 9, s.link.kiTerminateP, h][i]? = some w →
          (s.pilaIniziale f h level stk).read32 (stk 0 - 20 + BitVec.ofNat 32 (4 * i)) = w :=
      fun hw => pilaIniziale_sistema (by rw [paroleSistema, if_neg hl]; exact hw)
    have h3 : stk 0 - 20 + BitVec.ofNat 32 (4 * 3) = stk 0 - 8 := by bv_omega
    have h4 : stk 0 - 20 + BitVec.ofNat 32 (4 * 4) = stk 0 - 4 := by bv_omega
    refine ⟨?_, ?_, fun h => absurd h hl, ?_, ?_⟩
    · rw [← h0]
      exact hsis rfl
    · rw [← h1, if_neg hl]
      exact hsis rfl
    · rw [if_neg hl, if_neg hl, ← h3]
      exact hsis rfl
    · rw [if_neg hl, ← h4]
      exact hsis rfl

/-- The bytes of the new stacks are all that counts. -/
theorem Pila.congr {x y : Mem} {l : Link} {f h : Word} {level : Int} {stk : Fin 3 → Word}
    (hp : Pila x l f h level stk) (hxy : ∀ b, PileNuove stk b → y b = x b) :
    Pila y l f h level stk := by
  have hsis : ∀ k : Word, k.toNat ≤ 16 → y.read32 (stk 0 - 20 + k) = x.read32 (stk 0 - 20 + k) :=
    fun k hk => Mem.read32_within fun b hb => hxy b (Or.inl (hb.of_offset (by omega)))
  have hute : ∀ k : Word, k.toNat ≤ 4 → y.read32 (stk 2 - 8 + k) = x.read32 (stk 2 - 8 + k) :=
    fun k hk => Mem.read32_within fun b hb => hxy b (Or.inr (hb.of_offset (by omega)))
  have s0 : stk 0 - 20 + 0 = stk 0 - 20 := by bv_omega
  have s12 : stk 0 - 20 + 12 = stk 0 - 8 := by bv_omega
  have s16 : stk 0 - 20 + 16 = stk 0 - 4 := by bv_omega
  have u0 : stk 2 - 8 + 0 = stk 2 - 8 := by bv_omega
  have u4 : stk 2 - 8 + 4 = stk 2 - 4 := by bv_omega
  have e0 := hsis 0 (by decide)
  have e12 := hsis 12 (by decide)
  have e16 := hsis 16 (by decide)
  have v0 := hute 0 (by decide)
  have v4 := hute 4 (by decide)
  rw [s0] at e0
  rw [u0] at v0
  rw [u4] at v4
  refine ⟨e0.trans hp.eip, (hsis 4 (by decide)).trans hp.cs, fun hl => e12.trans (hp.esp hl), ?_, ?_⟩
  · refine Eq.trans ?_ hp.ritorno
    split
    · exact v0
    · rwa [s12] at e12
  · refine Eq.trans ?_ hp.parametro
    split
    · exact v4
    · rwa [s16] at e16

section Entrata

variable {m : Macchina} {l : Link} {f h : Word} {level : Int} {stk : Fin 3 → Word}

/-- The word on which `carica_stato` pushes `DS` is below the frame. -/
theorem Pila.sotto {x : Mem} (hsep : PileSeparate stk) (hp : Pila x l f h level stk) (v : Word) :
    Pila (x.write32 (stk 0 - 20 - 4) v) l f h level stk := by
  apply hp.congr
  intro b hb
  apply (Mem.ChangesAt.refl x).write32 (P := Mem.Within (stk 0 - 20 - 4) 4) (fun _ h => h) b
  rcases hb with hb | hb
  · exact sotto_telaio hb (by decide) (by decide)
  · intro hb'
    have h2 : stk 2 - 8 = stk 2 - 4096 + 4088 := by bv_omega
    have h0 : stk 0 - 20 - 4 = stk 0 - 4096 + 4072 := by bv_omega
    rw [h2] at hb
    rw [h0] at hb'
    exact hsep b (hb'.of_offset (by decide)) (hb.of_offset (by decide))

/-- The function of the process is entered with its parameter. -/
structure Entra (m : Macchina) (l : Link) (f h : Word) (level : Int) (stk : Fin 3 → Word) : Prop
    where
  eip : m.reg.eip = f
  cpl : m.cpl = if level = 3 then 3 else 0
  esp : m.reg.esp = if level = 3 then stk 2 - 8 else stk 0 - 8
  ritorno : m.cima = if level = 3 then l.terminateP else l.kiTerminateP
  parametro : m.argomento 0 = h

theorem Pila.entra (hp : Pila m.kernel.mem l f h level stk) (hsep : PileSeparate stk)
    (hesp : m.espSalvato = stk 0 - 20) : Entra m.caricaStato l f h level stk := by
  have hreg : m.caricaRegistri.reg.esp = stk 0 - 20 := by
    rw [← hesp]
    show m.espSalvato - 4 + 4 = m.espSalvato
    bv_omega
  have hmem : Pila m.caricaRegistri.kernel.mem l f h level stk := by
    have := hp.sotto hsep (m.leggiDes m.kernel.esecuzione (P_OFFCONTESTO + offDS))
    rw [← hesp] at this
    exact this
  have hker : m.caricaStato.kernel.mem = m.caricaRegistri.kernel.mem := by
    rw [Macchina.caricaStato, Macchina.iret_kernel]
  have harg : ∀ e : Word, e + 4 + BitVec.ofNat 32 (4 * 0) = e + 4 := fun e => by bv_omega
  have heip : m.caricaStato.reg.eip = f := by
    rw [← hmem.eip, ← hreg]
    unfold Macchina.caricaStato Macchina.iret
    simp only
    split <;> rfl
  have hcs : m.caricaStato.reg.cs = bassa (if level = 3 then USERCODESEL else SYSTEMCODESEL) := by
    rw [← hmem.cs, ← hreg]
    unfold Macchina.caricaStato Macchina.iret
    simp only
    split <;> rfl
  have hesp' : m.caricaStato.reg.esp = if level = 3 then stk 2 - 8 else stk 0 - 8 := by
    have hbassa : bassa (m.caricaRegistri.kernel.mem.read32 (m.caricaRegistri.reg.esp + 4)) =
        bassa (if level = 3 then USERCODESEL else SYSTEMCODESEL) := by rw [hreg, hmem.cs]
    unfold Macchina.caricaStato Macchina.iret
    simp only [hbassa]
    by_cases hl : level = 3
    · rw [if_pos hl, if_pos hl, if_neg (by decide)]
      show m.caricaRegistri.kernel.mem.read32 (m.caricaRegistri.reg.esp + 12) = _
      rw [hreg, hmem.esp hl]
    · rw [if_neg hl, if_neg hl, if_pos (by decide)]
      show m.caricaRegistri.reg.esp + 12 = _
      rw [hreg]
      bv_omega
  refine ⟨heip, ?_, hesp', ?_, ?_⟩
  · unfold Macchina.cpl
    rw [hcs]
    split <;> decide
  · unfold Macchina.cima
    rw [hesp', hker]
    exact hmem.ritorno
  · have hpar := hmem.parametro
    unfold Macchina.argomento
    rw [hesp', hker, harg]
    by_cases hl : level = 3
    · rw [if_pos hl] at hpar ⊢
      have h4 : stk 2 - 8 + 4 = stk 2 - 4 := by bv_omega
      rw [h4]
      exact hpar
    · rw [if_neg hl] at hpar ⊢
      have h4 : stk 0 - 8 + 4 = stk 0 - 4 := by bv_omega
      rw [h4]
      exact hpar

end Entrata

/-! ## The process that comes after -/

/-- The descriptor `p` is free, and a process of the list `l` has the CPU; the rest of `l` is
ready. -/
structure Subentra (p : Pid) (l : List Pid) (s : Kernel) : Prop where
  libero : (s.des (some p)).stato = .FREE
  altro : ∃ q l', s.esecuzione = some q ∧ q :: l' <:+ l ∧ Linked (successore s.des) s.pronti l'

section Fine

variable {s t : Kernel} {p q : Pid} {l : List Pid}

/-- `schedulatore` changes the link and the state of the process that gets the CPU only. -/
theorem schedulatore_altri (hq : s.pronti = some q) {r : DesPtr} (hr : r ≠ some q) :
    ((schedulatore s).des r).next = (s.des r).next ∧
      ((schedulatore s).des r).stato = (s.des r).stato := by
  simp only [schedulatore, hq]
  split
  · by_cases he : r = s.esecuzione
    · subst he
      simp [Kernel.aggiorna, hr]
    · simp [Kernel.aggiorna, hr, he]
  · simp [Kernel.aggiorna, hr]

theorem schedulatore_testa (hq : s.pronti = some q) : (schedulatore s).esecuzione = some q ∧
    (schedulatore s).pronti = (s.des (some q)).next := by
  simp only [schedulatore, hq]
  split
  · by_cases he : some q = s.esecuzione
    · simp [Kernel.aggiorna, ← he]
    · simp [Kernel.aggiorna, he]
  · simp [Kernel.aggiorna]

/-- The head of `pronti` gets the CPU and the rest stays ready. -/
theorem schedulatore_pronti (hl : Linked (successore s.des) s.pronti (q :: l)) :
    (schedulatore s).esecuzione = some q ∧
      Linked (successore (schedulatore s).des) (schedulatore s).pronti l := by
  have hq : s.pronti = some q := hl.head_eq
  obtain ⟨hesec, hpronti⟩ := schedulatore_testa hq
  have hnd := hl.nodup
  refine ⟨hesec, ?_⟩
  rw [hpronti]
  apply (Linked.suffix (a := []) hl).congr
  intro r hr
  have hne : r ≠ q := fun e => (List.nodup_cons.mp hnd).1 (e ▸ hr)
  exact (schedulatore_altri hq (fun e => hne (Option.some.inj e))).1

/-- `ki_terminate_p` halts when nobody is ready. -/
theorem kiTerminateP_vuota (h : s.pronti = none) : ∃ t, kiTerminateP s = .error (.halt t) :=
  ⟨_, if_pos h⟩

/-- Otherwise the head of `pronti` gets the CPU. -/
theorem kiTerminateP_pronti (hl : Linked (successore s.des) s.pronti (q :: l)) :
    ∃ t, kiTerminateP s = .ok t ∧ t.esecuzione = some q ∧
      Linked (successore t.des) t.pronti l ∧
      (∀ r, r ≠ s.esecuzione → r ≠ some q → (t.des r).stato = (s.des r).stato) ∧
      (s.esecuzione ≠ some q → (t.des s.esecuzione).stato = .FREE) := by
  let s₁ : Kernel := { s.aggiorna s.esecuzione fun d => { d with stato := .FREE } with
    procCount := int32 (s.procCount - 1) }
  have hq : s₁.pronti = some q := hl.head_eq
  have hl₁ : Linked (successore s₁.des) s₁.pronti (q :: l) := by
    apply Linked.congr hl
    intro r _
    by_cases he : some r = s.esecuzione
    · simp [s₁, successore, Kernel.aggiorna, ← he]
    · simp [s₁, successore, Kernel.aggiorna, he]
  obtain ⟨hesec, hlink⟩ := schedulatore_pronti hl₁
  refine ⟨schedulatore s₁, ?_, hesec, hlink, fun r hr hrq => ?_, fun hne => ?_⟩
  · have hne : s.pronti ≠ none := by
      rw [show s.pronti = some q from hq]
      rintro ⟨⟩
    exact if_neg hne
  · rw [(schedulatore_altri hq hrq).2]
    simp [s₁, Kernel.aggiorna, hr]
  · rw [(schedulatore_altri hq hne).2]
    simp [s₁, Kernel.aggiorna]

/-- When `ki_terminate_p` ends `p`, one that was ready takes its place. -/
theorem kiTerminateP_subentra (hl : Linked (successore s.des) s.pronti l) (hp : p ∉ l)
    (he : s.esecuzione = some p) :
    (∃ t, kiTerminateP s = .error (.halt t) ∧ s.pronti = none) ∨
      ∃ t, kiTerminateP s = .ok t ∧ s.pronti ≠ none ∧ Subentra p l t := by
  cases l with
  | nil =>
    have hnone := Linked.nil_iff.mp hl
    obtain ⟨t, ht⟩ := kiTerminateP_vuota hnone
    exact Or.inl ⟨t, ht, hnone⟩
  | cons q l =>
    obtain ⟨t, ht, hq, hlink, -, hfree⟩ := kiTerminateP_pronti hl
    have hne : s.esecuzione ≠ some q := by
      rw [he]
      rintro ⟨⟩
      exact hp List.mem_cons_self
    have hsome : s.pronti = some q := hl.head_eq
    refine Or.inr ⟨t, ht, ?_, ?_, q, l, hq, List.suffix_refl _, hlink⟩
    · rw [hsome]
      rintro ⟨⟩
    · rw [← he]
      exact hfree hne

/-- The same when a process other than `p` is ended. -/
theorem Subentra.termina (hs : Subentra p l s) (hp : p ∉ l) :
    (∃ t, kiTerminateP s = .error (.halt t)) ∨ ∃ t, kiTerminateP s = .ok t ∧ Subentra p l t := by
  obtain ⟨hfree, q, l', he, hsuf, hlink⟩ := hs
  cases l' with
  | nil => exact Or.inl (kiTerminateP_vuota (Linked.nil_iff.mp hlink))
  | cons r l'' =>
    obtain ⟨t, ht, hr, hlink', hstato, -⟩ := kiTerminateP_pronti hlink
    have hsuf' : r :: l'' <:+ l := (List.suffix_cons q _).trans hsuf
    have hpq : some p ≠ some q := fun e =>
      hp (hsuf.subset (Option.some.inj e ▸ List.mem_cons_self))
    have hpr : some p ≠ some r := fun e =>
      hp (hsuf'.subset (Option.some.inj e ▸ List.mem_cons_self))
    exact Or.inr ⟨t, ht, (hstato _ (he ▸ hpq) hpr).trans hfree, r, l'', hr, hsuf', hlink'⟩

/-- An assignment to other fields of the current process. -/
theorem Subentra.aggiorna (hs : Subentra p l s) (hp : p ∉ l) {f : DesProc → DesProc}
    (hf : ∀ d, (f d).next = d.next) : Subentra p l (s.aggiorna s.esecuzione f) := by
  obtain ⟨hfree, q, l', he, hsuf, hlink⟩ := hs
  have hpq : some p ≠ some q := fun e => hp (hsuf.subset (Option.some.inj e ▸ List.mem_cons_self))
  refine ⟨?_, q, l', he, hsuf, hlink.congr fun r _ => ?_⟩
  · rw [Kernel.des_aggiorna, Function.update_of_ne (he ▸ hpq)]
    exact hfree
  · unfold successore
    rw [Kernel.des_aggiorna]
    by_cases hr : some r = s.esecuzione
    · rw [← hr, Function.update_self]
      exact hf _
    · rw [Function.update_of_ne hr]

/-- The signals of the new process may end it too; then the next one takes its place. -/
theorem signalsCheck_subentra (hs : Subentra p l s) (hp : p ∉ l) :
    (∃ t, signalsCheck s = .error (.halt t)) ∨ ∃ t, signalsCheck s = .ok t ∧ Subentra p l t := by
  have hne : s.esecuzione ≠ none := by
    obtain ⟨-, q, l', he, -, -⟩ := hs
    rw [he]
    rintro ⟨⟩
  unfold signalsCheck
  rw [if_neg hne]
  by_cases hmask : (s.des s.esecuzione).sigMask ≠ 0
  · obtain ⟨n, hn⟩ := getlsb_some hmask
    have hs₁ := hs.aggiorna hp (f := DesProc.preso n) fun d => rfl
    rw [if_pos hmask]
    unfold handlesignals
    simp only [hn, dif_pos n.isLt]
    split
    · exact Or.inr ⟨_, rfl, hs₁⟩
    · split
      · split
        · exact hs₁.termina hp
        · exact Or.inr ⟨_, rfl, hs₁⟩
      · split
        · exact Or.inr ⟨_, rfl, hs₁⟩
        · exact Or.inr ⟨_, rfl, hs₁.libero, hs₁.altro⟩
  · rw [if_neg hmask]
    exact Or.inr ⟨s, rfl, hs⟩

end Fine

/-! ## The return -/

/-- The process `p` has ended, and control has left its stack: the kernel has halted, or the
registers of another process, which was ready in `k`, have been loaded. -/
def Destino.Altrove (k : Kernel) (p : Pid) : Destino → Prop
  | .fermo => True
  | .carica m => (m.kernel.des (some p)).stato = .FREE ∧
    ∃ q, q ≠ p ∧ m.kernel.esecuzione = some q ∧ k.InPronti q
  | .prosegue _ _ => False

/-- The ready list does not hold `p`. -/
def Kernel.ProntiSenza (s : Kernel) (p : Pid) : Prop :=
  ∃ l, Linked (successore s.des) s.pronti l ∧ p ∉ l

section Ritorno

variable {img : Immagine} {dopoInt : Word} {i r : Macchina} {l : Link} {f h : Word} {level : Int}
  {stk : Fin 3 → Word} {p : Pid}

/-- `__salva_stato` leaves the links alone. -/
theorem linked_contesto {s : Kernel} {q head : DesPtr} {l : List Pid}
    (c : (Fin NUMREG → Word) → Fin NUMREG → Word) (h : Linked (successore s.des) head l) :
    Linked (successore (s.aggiorna q fun d => { d with context := c d.context }).des) head l := by
  apply h.congr
  intro r _
  unfold successore
  by_cases hr : some r = q
  · subst hr
    simp [Kernel.aggiorna]
  · simp [Kernel.aggiorna, hr]

/-- The return address of a function below level 3 is `ki_terminate_p`, which returns to the
word above it, unless it halts. -/
theorem ritorno_sistema (img : Immagine) (dopoInt : Word) (heip : r.cima = r.kernel.link.kiTerminateP)
    (hne : r.kernel.link.terminateP ≠ r.kernel.link.kiTerminateP) (hq : r.kernel.ProntiSenza p)
    (he : r.kernel.esecuzione = some p) :
    (r.kernel.pronti = none ∧ r.ritorno img dopoInt = some .fermo) ∨
      (r.kernel.pronti ≠ none ∧
        r.ritorno img dopoInt = some (.prosegue (r.argomento 0) (r.reg.esp + 8))) := by
  have hrit : r.ritorno img dopoInt = Destino.daRet r.ret := by
    unfold Macchina.ritorno
    have hret : r.ret.reg.eip = r.kernel.link.kiTerminateP := heip
    simp only [hret]
    rw [if_neg hne.symm, if_pos trivial]
  obtain ⟨l, hl, hp⟩ := hq
  rw [hrit]
  unfold Destino.daRet
  rcases kiTerminateP_subentra hl hp he with ⟨t, ht, hnone⟩ | ⟨t, ht, hsome, -⟩
  · have ht' : kiTerminateP r.ret.kernel = .error (.halt t) := ht
    rw [ht']
    exact Or.inl ⟨hnone, rfl⟩
  · have ht' : kiTerminateP r.ret.kernel = .ok t := ht
    have h8 : r.reg.esp + 4 + 4 = r.reg.esp + 8 := by bv_omega
    have h0 : r.reg.esp + 4 + BitVec.ofNat 32 (4 * 0) = r.reg.esp + 4 := by bv_omega
    rw [ht']
    refine Or.inr ⟨hsome, ?_⟩
    show some (Destino.prosegue (t.mem.read32 (r.reg.esp + 4)) (r.reg.esp + 4 + 4)) = _
    rw [(kiTerminateP_quieto ht).mem, h8, Macchina.argomento, h0]

/-- The return address of a function of level 3 is the stub; another process follows. -/
theorem ritorno_utente (heip : r.cima = r.kernel.link.terminateP)
    (hki : img.ki .terminateP = r.kernel.link.kiTerminateP) (hki0 : r.kernel.link.kiTerminateP ≠ 0)
    (hq : r.kernel.ProntiSenza p) (he : r.kernel.esecuzione = some p)
    (hT : img.Caricata (r.ret.stub 1 dopoInt).kernel.mem)
    (hP : (r.ret.stub 1 dopoInt).PilaLibera img 28) :
    ∃ d, r.ritorno img dopoInt = some d ∧ d.Altrove r.kernel p := by
  have hf := syscalle_funzione (d := ⟨.terminateP, 0, 1⟩) hT hP rfl (Mem.read32_write32 _ _ _)
    (hki ▸ hki0)
  obtain ⟨x, hx⟩ := hf.kernel
  obtain ⟨l, hl, hp⟩ := hq
  generalize hsys : syscalle img (r.ret.stub 1 dopoInt).interruzione = c at hf hx
  have hrit : r.ritorno img dopoInt = Destino.daSyscalle c.2 := by
    unfold Macchina.ritorno
    have hret : r.ret.reg.eip = r.kernel.link.terminateP := heip
    simp only [hret, if_true, hsys]
    obtain ⟨a, m⟩ := c
    obtain rfl : a = .funzione (img.ki .terminateP) := hf.arrivo
    exact if_pos hki
  have hl' : Linked (successore c.2.kernel.des) c.2.kernel.pronti l := by
    rw [hx]
    exact linked_contesto _ hl
  have he' : c.2.kernel.esecuzione = some p := by
    rw [hx]
    exact he
  rw [hrit]
  unfold Destino.daSyscalle
  rcases kiTerminateP_subentra hl' hp he' with ⟨t, ht, -⟩ | ⟨t, ht, -, hs⟩
  · rw [ht]
    exact ⟨.fermo, rfl, trivial⟩
  · rw [ht]
    have hbind : ((Except.ok t : Esito Kernel) >>= fun k => (c.2.conKernel k).signalsCheck) =
        (c.2.conKernel t).signalsCheck := rfl
    rw [hbind]
    unfold Macchina.signalsCheck
    rcases signalsCheck_subentra hs hp with ⟨u, hu⟩ | ⟨u, hu, hsu⟩
    · have hu' : Pitos.signalsCheck (c.2.conKernel t).kernel = .error (.halt u) := hu
      rw [hu']
      exact ⟨.fermo, rfl, trivial⟩
    · have hu' : Pitos.signalsCheck (c.2.conKernel t).kernel = .ok u := hu
      rw [hu']
      refine ⟨_, rfl, ?_⟩
      obtain ⟨hfree, q, l', hq, hsuf, -⟩ := hsu
      have hqp : q ≠ p := fun e => hp (hsuf.subset (e ▸ List.mem_cons_self))
      have hker := Macchina.caricaStato_kernel (m := (c.2.conKernel t).conKernel u)
      refine ⟨?_, q, hqp, ?_, l, hl, hsuf.subset List.mem_cons_self⟩
      · rw [hker]
        exact hfree
      · rw [hker]
        exact hq

end Ritorno

/-! ## The end of one process -/

/-- A process of level 3, and it alone, ends when its function returns and somebody is ready. -/
theorem funzione_ritorna {s t : Kernel} {f h : Word} {prec level : Int} {idx risu : Word}
    {stk : Fin 3 → Word} {p : Pid} (hp : s.cercaLibero = some p)
    (hact : kiActivatePLevel f h prec level idx risu stk s = .ok t) (hrisu : t.mem risu = 1)
    (hfuori : ¬ PileNuove stk risu) (hsep : PileSeparate stk)
    {img : Immagine} (hki : img.ki .terminateP = t.link.kiTerminateP)
    (hki0 : t.link.kiTerminateP ≠ 0) (hne : t.link.terminateP ≠ t.link.kiTerminateP)
    {m : Macchina} (hm : m.Nuovo t p stk) :
    m.caricaStato.reg.eip = f ∧ m.caricaStato.argomento 0 = h ∧
      ∀ (r : Macchina) (dopoInt : Word), m.caricaStato.Ritorna r →
        r.kernel.esecuzione = some p → r.kernel.ProntiSenza p →
        img.Caricata (r.ret.stub 1 dopoInt).kernel.mem →
        (r.ret.stub 1 dopoInt).PilaLibera img 28 →
        ∃ d, r.ritorno img dopoInt = some d ∧
          (d.Altrove r.kernel p ↔ clamp level 0 3 = 3 ∨ r.kernel.pronti = none) := by
  obtain ⟨hlink, hcontext, s₁, hs₁, hmem⟩ := kiActivatePLevel_attivata hp hact hrisu
  have hpila : Pila m.kernel.mem t.link f h (clamp level 0 3) stk := by
    rw [hlink, ← hs₁]
    apply (pilaIniziale_pila s₁ f h (clamp level 0 3) hsep).congr
    intro b hb
    rw [hm.pile b hb, hmem b fun e => hfuori (e ▸ hb)]
  have hesp : m.espSalvato = stk 0 - 20 := by
    unfold Macchina.espSalvato
    rw [hm.esecuzione, hm.context, hcontext]
    rfl
  have hi := hpila.entra hsep hesp
  refine ⟨hi.eip, hi.parametro, fun r dopoInt hr he hq hT hP => ?_⟩
  have hlinkr : r.kernel.link = t.link := by
    rw [hr.link, Macchina.caricaStato_kernel]
    exact hm.link
  have hcima := hr.cima.trans hi.ritorno
  rw [← hlinkr] at hcima hki hki0 hne
  by_cases hl : clamp level 0 3 = 3
  · rw [if_pos hl] at hcima
    obtain ⟨d, hd, halt⟩ := ritorno_utente hcima hki hki0 hq he hT hP
    exact ⟨d, hd, fun _ => Or.inl hl, fun _ => halt⟩
  · rw [if_neg hl] at hcima
    rcases ritorno_sistema img dopoInt hcima hne hq he with ⟨hnone, hd⟩ | ⟨hsome, hd⟩
    · exact ⟨.fermo, hd, fun _ => Or.inr hnone, fun _ => trivial⟩
    · refine ⟨_, hd, fun h => absurd h id, fun h => ?_⟩
      rcases h with h | h
      · exact absurd h hl
      · exact absurd h hsome

/-! Two processes after the idle one: one that waits its turn, and one of the given level that is
dispatched first and returns at once. -/

/-- Before the second activation of `cmain`. -/
def primaDi : Kernel :=
  dopo (kernelInit 0x5000 0x5004 (pila 0x20000)
    { caricato with link := { collegato with kiTerminateP := 0x30110 } } >>=
      kiActivatePLevel 0x6000 0 100 3 0x5010 0x5014 (pila 0x24000))

def attiva (level : Int) : Esito Kernel :=
  kiActivatePLevel 0x7000 0x1234 10 level 0x5020 0x5024 (pila 0x28000) primaDi

/-- About to start the process at the head of `pronti`, with the tables of the image in
memory. -/
def Kernel.inAvvio (t : Kernel) : Macchina where
  reg := ⟨0, 0, 0, 0, 0, 0, 0, 0x32F00, 0, 0, 0x8, 0x10, 0x10, 0x10, 0x10, 0x10⟩
  kernel := { schedulatore t with mem := immagine.sopra t.mem }

theorem pila_separate (a : Word) : PileSeparate (pila a) := by
  intro b hb hb'
  have h0 : pila a 0 = a := by simp [pila]
  have h2 : pila a 2 = a + 8192 := rfl
  rw [h0] at hb
  rw [h2] at hb'
  unfold Mem.Within at *
  bv_omega

/-- The tables are not on the stacks. -/
theorem tabelle_pile {b : Word} (hb : PileNuove (pila 0x28000) b) :
    ¬ Mem.Within immagine.syscallTable (4 * immagine.tabelle.length) b := by
  intro h
  rw [tabelle_length] at h
  have h : Mem.Within 0x32000 936 b := h
  rcases hb with hb | hb
  · have hb : Mem.Within (0x28000 - 20) 20 b := hb
    unfold Mem.Within at *
    bv_omega
  · have hb : Mem.Within (0x2A000 - 8) 8 b := hb
    unfold Mem.Within at *
    bv_omega

theorem inAvvio_nuovo {t : Kernel} {p : Pid} (he : (schedulatore t).esecuzione = some p) :
    t.inAvvio.Nuovo t p (pila 0x28000) :=
  ⟨he, (schedulatore_quieto t).link, ((schedulatore_quieto t).conservati (some p)).context, fun _ hb =>
    sopra_fuori (tabelle_pile hb)⟩

theorem inAvvio_caricata {t : Kernel} (hesp : t.inAvvio.espSalvato = 0x27FEC) :
    immagine.Caricata t.inAvvio.caricaStato.kernel.mem := by
  rw [Macchina.caricaStato_kernel]
  refine (sopra_caricata immagine t.mem).congr ((Mem.ChangesAt.refl _).write32 fun b hb => hb)
    fun b hb h => ?_
  rw [tabelle_length] at hb
  rw [hesp] at h
  have hb : Mem.Within 0x32000 936 b := hb
  unfold Mem.Within at *
  bv_omega

/-- The stub finds the tables, and the entry of the kernel writes on the system stack only. -/
theorem stub_libera {c : Macchina} (hesp : c.reg.esp = 0x29FF8) (htss : c.kernel.tssEsp0 = 0x28000)
    (hcpl : c.cpl = 3) (hT : immagine.Caricata c.kernel.mem) :
    immagine.Caricata (c.ret.stub 1 0x30202).kernel.mem ∧
      (c.ret.stub 1 0x30202).PilaLibera immagine 28 := by
  have hreg : (c.ret.stub 1 0x30202).reg.esp = 0x29FF8 := by
    show c.reg.esp + 4 - 4 = _
    rw [hesp]
    rfl
  have hmem : (c.ret.stub 1 0x30202).kernel.mem = c.kernel.mem.write32 0x29FF8 1 := by
    show c.kernel.mem.write32 (c.reg.esp + 4 - 4) 1 = _
    rw [hesp]
    rfl
  have hzona : ∀ b, (c.ret.stub 1 0x30202).Zona b → Mem.Within 0x27FD4 44 b := fun b hb => by
    have hcpl' : (c.ret.stub 1 0x30202).cpl = 3 := hcpl
    have htss' : (c.ret.stub 1 0x30202).kernel.tssEsp0 = 0x28000 := htss
    unfold Macchina.Zona Macchina.base at hb
    rw [hcpl', htss', if_neg (by decide), if_neg (by decide)] at hb
    exact hb
  have htab : ∀ b, Mem.Within immagine.syscallTable (4 * immagine.tabelle.length) b →
      Mem.Within 0x32000 936 b := fun b hb => by
    rwa [tabelle_length] at hb
  refine ⟨?_, fun b hb hz => ?_, fun b hb hz => ?_⟩
  · rw [hmem]
    refine hT.congr ((Mem.ChangesAt.refl _).write32 fun b hb => hb) fun b hb h => ?_
    have hb := htab b hb
    unfold Mem.Within at *
    bv_omega
  · have hb := htab b hb
    have hz := hzona b hz
    unfold Mem.Within at *
    bv_omega
  · have hz := hzona b hz
    rw [hreg] at hb
    unfold Mem.Within at *
    bv_omega

/-- Two processes are ready. -/
theorem inAvvio_senza {t : Kernel} {p q r : Pid} (hq : (schedulatore t).pronti = some q)
    (hr : ((schedulatore t).des (some q)).next = some r)
    (hend : ((schedulatore t).des (some r)).next = none) (hp : p ∉ [q, r]) :
    t.inAvvio.caricaStato.kernel.ProntiSenza p := by
  refine ⟨[q, r], ?_, hp⟩
  rw [Macchina.caricaStato_kernel]
  show Linked (successore (schedulatore t).des) (schedulatore t).pronti [q, r]
  rw [hq, Linked.some_cons_iff]
  refine ⟨rfl, ?_⟩
  rw [successore, hr, Linked.some_cons_iff]
  exact ⟨rfl, Linked.nil_iff.mpr hend⟩

/-- A process of level 3, with another one ready. -/
theorem funzione_ritorna_corsa : ∃ (t : Kernel) (d : Destino),
    attiva 3 = .ok t ∧ t.inAvvio.caricaStato.reg.eip = 0x7000 ∧
      t.inAvvio.caricaStato.argomento 0 = 0x1234 ∧
      t.inAvvio.caricaStato.ritorno immagine 0x30202 = some d ∧
      d.Altrove t.inAvvio.caricaStato.kernel 2 := by
  have hact : attiva 3 = .ok (dopo (attiva 3)) := dopo_eq (by decide +kernel)
  have hesec : (schedulatore (dopo (attiva 3))).esecuzione = some 2 := by decide +kernel
  have hesp : (dopo (attiva 3)).inAvvio.espSalvato = 0x27FEC := by decide +kernel
  have hfuori : ¬ PileNuove (pila 0x28000) 0x5024 := fun h =>
    h.elim (fun h => absurd h (by decide)) fun h => absurd h (by decide)
  have hpronti : (dopo (attiva 3)).inAvvio.caricaStato.kernel.ProntiSenza 2 :=
    inAvvio_senza (q := 1) (r := 0) (by decide +kernel) (by decide +kernel) (by decide +kernel)
      (by decide)
  obtain ⟨hT, hP⟩ := stub_libera (c := (dopo (attiva 3)).inAvvio.caricaStato) (by decide +kernel)
    (by decide +kernel) (by decide +kernel) (inAvvio_caricata hesp)
  have hki : immagine.ki .terminateP = (dopo (attiva 3)).link.kiTerminateP := by decide +kernel
  obtain ⟨heip, harg, hrit⟩ := funzione_ritorna (s := primaDi) (p := 2)
    (by decide +kernel) hact (by decide +kernel) hfuori (pila_separate _) hki
    (by decide +kernel) (by decide +kernel) (inAvvio_nuovo hesec)
  obtain ⟨d, hd, halt⟩ := hrit _ 0x30202 ⟨rfl, rfl, rfl, rfl⟩ hesec hpronti hT hP
  exact ⟨_, d, hact, heip, harg, hd, halt.mpr (Or.inl (by decide))⟩

/-- The same process at level 0: `ki_terminate_p` returns to the parameter of the function, on
the stack of the process that has ended. -/
theorem funzione_di_sistema : ∃ t : Kernel,
    attiva 0 = .ok t ∧ t.mem 0x5024 = 1 ∧ t.inAvvio.Nuovo t 2 (pila 0x28000) ∧
      t.inAvvio.caricaStato.kernel.pronti = some 1 ∧
      t.inAvvio.caricaStato.ritorno immagine 0x30202 = some (.prosegue 0x1234 0x28000) ∧
      ¬ (Destino.prosegue 0x1234 0x28000).Altrove t.inAvvio.caricaStato.kernel 2 := by
  have hesec : (schedulatore (dopo (attiva 0))).esecuzione = some 2 := by decide +kernel
  have hpr : (schedulatore (dopo (attiva 0))).pronti = some 1 := by decide +kernel
  have hpronti : (dopo (attiva 0)).inAvvio.caricaStato.kernel.ProntiSenza 2 :=
    inAvvio_senza (q := 1) (r := 0) hpr (by decide +kernel) (by decide +kernel) (by decide)
  have harg : (dopo (attiva 0)).inAvvio.caricaStato.argomento 0 = 0x1234 := by decide +kernel
  have hesp : (dopo (attiva 0)).inAvvio.caricaStato.reg.esp + 8 = 0x28000 := by decide +kernel
  have hker := Macchina.caricaStato_kernel (m := (dopo (attiva 0)).inAvvio)
  have hpr' : (dopo (attiva 0)).inAvvio.caricaStato.kernel.pronti = some 1 := by
    rw [hker]
    exact hpr
  refine ⟨dopo (attiva 0), dopo_eq (by decide +kernel), by decide +kernel, inAvvio_nuovo hesec, hpr', ?_,
    fun h => h.elim⟩
  rcases ritorno_sistema immagine 0x30202 (r := (dopo (attiva 0)).inAvvio.caricaStato)
      (by decide +kernel) (by decide +kernel) hpronti
    hesec with ⟨hnone, -⟩ | ⟨-, hrit⟩
  · rw [hpr'] at hnone
    cases hnone
  · rw [hrit, harg, hesp]

end Pitos
