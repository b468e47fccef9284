import Pitos.Properties.Nesting

/-!
# What a system call returns

`ki_signal` and `ki_raise` leave their result in `EAX`, and `carica_stato` loads the `EAX` that
the process had at the `int`. So the process sees its own word, or what a handler that runs before
the end of the stub has left there: `risultati_resi`.

`Porta` is a step of the machine with that word beside it, and `Usa` what a process of level 3
does, one call through the stub of `signal` or `raise` being a single step.
-/

namespace Pitos

open Lib

/-- The result of the functions that have one. -/
def Chiamata.risultato (s : Kernel) : Chiamata → Option Word
  | .signal sig func => some (kiSignal sig func s).1
  | .raise sig => some (BitVec.ofInt 32 (kiRaise sig s).1)
  | _ => none

/-- What the process with descriptor `d` is to get from the call. -/
def Chiamata.atteso (d : DesProc) : Chiamata → Word
  | .signal sig _ => (segnale sig).elim 0 d.sigHandlers
  | .raise sig => if 0 ≤ sig ∧ sig < SIGCOUNT then 0 else -1
  | _ => 0

/-- A call that has come back: the kernel at the entry of its function, the word that the process
had in `EAX` at the `int`, or else the one left there by the last handler to return before the
stub did, and `EAX` at the end of the stub. -/
structure Resa where
  chiamata : Chiamata
  kernel : Kernel
  ultimo : Word
  eax : Word

/-- The process gets the result. -/
def Resa.Giusta (a : Resa) : Prop := a.chiamata.risultato a.kernel = some a.eax

/-- `EAX` was right before. -/
def Resa.Coincide (p : Pid) (a : Resa) : Prop :=
  a.ultimo = a.chiamata.atteso (a.kernel.des (some p))

/-- A call of `signal` with the word that the first one has returned gives the process back its
handlers, if it finds them as the first one has left them. -/
def Resa.Ripristina (p : Pid) (a : Resa) (sig : Int) (g : Word) : Prop :=
  ∀ s : Kernel, s.esecuzione = some p →
    (s.des (some p)).sigHandlers = ((kiSignal sig g a.kernel).2.des (some p)).sigHandlers →
      ((kiSignal sig a.eax s).2.des (some p)).sigHandlers = (a.kernel.des (some p)).sigHandlers

/-! ## Steps -/

/-- The word beside the machine changes when a handler returns. -/
def Porta (img : Immagine) (st : Stub) (p : Pid) (e : Word) (K : Word → Prop) (lo : Word) (n : Nat)
    (x y : (Macchina × Annidamento) × Word) : Prop :=
  Svolge img st p e K lo n x.1 y.1 ∧
    y.2 = if inGestore x.1.2 && !inGestore y.1.2 then x.1.1.reg.eax else x.2

/-- `add esp, 4` of a stub, whose `ret` is at `alRet`. -/
def Macchina.somma (m : Macchina) (alRet : Word) : Macchina :=
  { m.addEsp4 with reg := { m.addEsp4.reg with eip := alRet } }

/-- What the process `p` does, from one moment at which it is running to another. It writes no
byte of `K`. -/
inductive Usa (img : Immagine) (st : Stub) (p : Pid) (e : Word) (K : Word → Prop) (lo : Word)
    (n : Nat) : Macchina → Option Resa → Macchina → Prop
  /-- Its own instructions. -/
  | programma {m : Macchina} {reg : Registri} (hcs : reg.cs = m.reg.cs) {x : Mem}
      (hx : ∀ b, K b → x b = m.kernel.mem b) :
      Usa img st p e K lo n m none ⟨reg, { m.kernel with mem := x }⟩
  /-- An interrupt or a call, with what follows until the process goes on behind it. -/
  | passaggio {m m₁ m' : Macchina} {cs : List Attivazione}
      (h : m.Passa img p e (Custoditi K lo n) K m₁ cs) (hposto : ∀ a ∈ cs, Capiente lo n a.esp)
      (hrun : Relation.ReflTransGen (Svolge img st p e K lo n) (m₁, nuove cs) (m', []))
      (he : m'.kernel.esecuzione = some p) : Usa img st p e K lo n m none m'
  /-- The stub of `signal` or `raise`, from its `int` to its `ret`. -/
  | resa {m m₁ m₂ m₃ : Macchina} {d : Dichiarazione} {c : Chiamata} {k t : Kernel}
      {cs : List Attivazione} {v w alRet : Word} (hd : m.Numero img d) (hnome : d.nome = c.nome)
      (hc : (∃ sig g, c = .signal sig g) ∨ ∃ sig, c = .raise sig)
      (hk : (syscalle img m.interruzione).2.kernel = k) (h : esegui c k = .ok t)
      (hcons : t.Consegna p cs)
      (h' : ((syscalle img m.interruzione).2.conKernel t).signalsCheck = .ok m₁)
      (hposto : ∀ a ∈ cs, Capiente lo n a.esp)
      (hrun : Relation.ReflTransGen (Porta img st p e K lo n) ((m₁, nuove cs), m.reg.eax)
        ((m₂, []), v)) (he₂ : m₂.kernel.esecuzione = some p)
      (hrun' : Relation.ReflTransGen (Porta img st p e K lo n) ((m₂.somma alRet, []), v)
        ((m₃, []), w)) (he₃ : m₃.kernel.esecuzione = some p) :
      Usa img st p e K lo n m (some ⟨c, k, w, m₃.ret.reg.eax⟩) m₃.ret

section

variable {img : Immagine} {st : Stub} {p : Pid} {e lo eip₀ esp₀ v : Word} {n : Nat}
  {K V : Word → Prop} {x₀ : Mem} {m m' : Macchina} {G G' : Annidamento} {r : Registri}
  {cs : List Attivazione} {s k t : Kernel} {c : Chiamata}

/-! ## EAX along a run -/

theorem inGestore_nuove (h : inGestore G = true) (cs : List Attivazione) :
    inGestore (nuove cs ++ G) = true := by
  cases cs with
  | nil => exact h
  | cons a cs => rfl

/-- The code of a handler is left by a step of the process. -/
theorem Svolge.esce (h : Svolge img st p e K lo n (m, G) (m', G')) (hG : inGestore G = true)
    (hG' : inGestore G' = false) : m.kernel.esecuzione = some p := by
  cases h with
  | altrui h hposto => exact absurd hG' (by rw [inGestore_nuove hG]; exact nofun)
  | interrotto he => exact he
  | programma he => exact he
  | chiamata he => exact he
  | ritorna he => exact he
  | spinge he => exact he
  | serve he => exact he
  | somma he => exact he
  | torna he => exact he

/-- Outside the handlers the word beside the machine is the `EAX` of the process. The induction is
on the run; the user stack is needed to get through the stubs. -/
theorem porta_corsa {x y : (Macchina × Annidamento) × Word}
    (hrun : Relation.ReflTransGen (Porta img st p e K lo n) x y)
    (hm : x.1.1.Attende p r e (Custoditi K lo n)) (hU : Discosto e (Custoditi K lo n))
    (hA : Annidate lo n eip₀ esp₀ V x₀ x.1.2 r.eip r.esp x.1.1.kernel.mem)
    (hV : ∀ b, V b → Sopra lo n esp₀ b) (hv : inGestore x.1.2 = false → r.eax = x.2) :
    ∃ r', y.1.1.Attende p r' e (Custoditi K lo n) ∧
      Annidate lo n eip₀ esp₀ V x₀ y.1.2 r'.eip r'.esp y.1.1.kernel.mem ∧
        (inGestore y.1.2 = false → r'.eax = y.2) := by
  induction hrun with
  | refl => exact ⟨r, hm, hA, hv⟩
  | tail _ hstep ih =>
    obtain ⟨r₁, hm₁, hA₁, hv₁⟩ := ih
    obtain ⟨hsvolge, hword⟩ := hstep
    obtain ⟨r₂, hm₂, hA₂, heax⟩ := hsvolge.annidate hm₁ hU hA₁ hV
    refine ⟨r₂, hm₂, hA₂, fun hno => ?_⟩
    rw [heax hno, hword, hno]
    split
    · rename_i hG
      rw [Bool.and_eq_true] at hG
      rw [hm₁.reg (hsvolge.esce hG.1 hno)]
    · rename_i hG
      exact hv₁ (by simpa using hG)

/-- A run from one moment at which no handler is open to another. -/
theorem porta_chiusa {w : Word}
    (hrun : Relation.ReflTransGen (Porta img st p e K lo n) ((m, []), v) ((m', []), w))
    (hm : m.Attende p m.reg e (Custoditi K lo n)) (hU : Discosto e (Custoditi K lo n))
    (hv : m.reg.eax = v) (he : m'.kernel.esecuzione = some p) :
    m'.Attende p m'.reg e (Custoditi K lo n) ∧ m'.reg.eax = w := by
  have hA : Annidate lo n m.reg.eip m.reg.esp nessuno m.kernel.mem [] m.reg.eip m.reg.esp
      m.kernel.mem := ⟨rfl, rfl, nofun⟩
  obtain ⟨r, hr, -, hw⟩ := porta_corsa hrun hm hU hA nofun fun _ => hv
  rw [hr.reg he]
  exact ⟨hr.reg he ▸ hr, hw rfl⟩

/-! ## The functions -/

/-- `signal` and `raise` write no memory of the processes and activate nobody. -/
theorem signal_raise_innocue (hc : (∃ sig g, c = .signal sig g) ∨ ∃ sig, c = .raise sig)
    (s : Kernel) (p : Pid) (Q R : Word → Prop) :
    (∀ b, c.Scrive s b → ¬ Q b) ∧ c.Discosta s p R := by
  rcases hc with ⟨sig, g, rfl⟩ | ⟨sig, rfl⟩ <;> exact ⟨fun b hb => absurd hb id, trivial⟩

theorem signal_raise_esecuzione (hc : (∃ sig g, c = .signal sig g) ∨ ∃ sig, c = .raise sig)
    (h : esegui c s = .ok t) : t.esecuzione = s.esecuzione := by
  rcases hc with ⟨sig, g, rfl⟩ | ⟨sig, rfl⟩
  · obtain rfl := Except.ok.inj h
    unfold kiSignal
    split <;> rfl
  · obtain rfl := Except.ok.inj h
    unfold kiRaise
    split <;> rfl

/-- What the functions return, by the descriptor of the process. -/
theorem risultato_atteso (hc : (∃ sig g, c = .signal sig g) ∨ ∃ sig, c = .raise sig)
    (he : s.esecuzione = some p) : c.risultato s = some (c.atteso (s.des (some p))) := by
  rcases hc with ⟨sig, g, rfl⟩ | ⟨sig, rfl⟩
  · show some (kiSignal sig g s).1 = some ((segnale sig).elim 0 (s.des (some p)).sigHandlers)
    unfold kiSignal
    cases segnale sig with
    | none => rfl
    | some i =>
      rw [he]
      rfl
  · show some (BitVec.ofInt 32 (kiRaise sig s).1) =
      some (if 0 ≤ sig ∧ sig < SIGCOUNT then (0 : Word) else -1)
    by_cases hsig : 0 ≤ sig ∧ sig < SIGCOUNT
    · have hs : segnale sig = some ⟨sig.toNat, by omega⟩ := dif_pos hsig
      rw [if_pos hsig, kiRaise, hs]
      rfl
    · have hs : segnale sig = none := dif_neg hsig
      rw [if_neg hsig, kiRaise, hs]
      rfl

/-- The second of two assignments to an entry is the one that counts. -/
theorem signal_ripristina {sig : Int} {g w : Word} (hs : s.esecuzione = some p)
    (hk : k.esecuzione = some p)
    (h : (s.des (some p)).sigHandlers = ((kiSignal sig g k).2.des (some p)).sigHandlers) :
    ((kiSignal sig w s).2.des (some p)).sigHandlers = (k.des (some p)).sigHandlers ↔
      segnale sig = none ∨ w = (Chiamata.signal sig g).atteso (k.des (some p)) := by
  have hatteso : (Chiamata.signal sig g).atteso (k.des (some p)) =
      (segnale sig).elim 0 (k.des (some p)).sigHandlers := rfl
  rw [hatteso]
  unfold kiSignal at h ⊢
  cases hsig : segnale sig with
  | none =>
    rw [hsig] at h
    exact ⟨fun _ => Or.inl rfl, fun _ => h⟩
  | some i =>
    rw [hsig] at h
    simp only [hs, hk, Kernel.des_aggiorna, Function.update_self] at h ⊢
    rw [h, Function.update_idem]
    simp only [Option.elim_some, reduceCtorEq, false_or]
    exact ⟨fun heq => by rw [← heq, Function.update_self],
      fun hw => by rw [hw, Function.update_eq_self]⟩

theorem Resa.ripristina_iff {a : Resa} {sig : Int} {g : Word} (hk : a.kernel.esecuzione = some p)
    (ha : a.chiamata = .signal sig g) : a.Ripristina p sig g ↔
      segnale sig = none ∨ a.eax = a.chiamata.atteso (a.kernel.des (some p)) := by
  rw [ha]
  constructor
  · intro hrip
    have hs : (kiSignal sig g a.kernel).2.esecuzione = some p := by
      rw [← hk]
      unfold kiSignal
      split <;> rfl
    exact (signal_ripristina hs hk rfl).mp (hrip _ hs rfl)
  · intro h s hs hgest
    exact (signal_ripristina hs hk hgest).mpr h

/-! ## One step of the process -/

/-- A call of `signal` or `raise` and a run after it are a passage of the process. -/
theorem resa_passa {d : Dichiarazione} {m₁ : Macchina} (hm : m.Attende p m.reg e (Custoditi K lo n))
    (he : m.kernel.esecuzione = some p) (hd : m.Numero img d) (hnome : d.nome = c.nome)
    (hc : (∃ sig g, c = .signal sig g) ∨ ∃ sig, c = .raise sig)
    (h : esegui c (syscalle img m.interruzione).2.kernel = .ok t) (hcons : t.Consegna p cs)
    (h' : ((syscalle img m.interruzione).2.conKernel t).signalsCheck = .ok m₁) :
    m.Passa img p e (Custoditi K lo n) K m₁ cs := by
  have hte : t.esecuzione = some p := (signal_raise_esecuzione hc h).trans
    ((syscalle_dentro hd).2.esecuzione.trans he)
  obtain ⟨hw, hn⟩ := signal_raise_innocue hc (syscalle img m.interruzione).2.kernel p
    (Riservati e K) (Riservati e (Custoditi K lo n))
  exact .chiamata hd hnome (fun h0 => absurd h0 hm.livello) hw hn h
    (fun q _ _ hq hq' => absurd (Option.some.inj (hq'.symm.trans hte)) hq) hcons h'

/-- What is known between the steps. -/
def InCorso (p : Pid) (e : Word) (K : Word → Prop) (lo : Word) (n : Nat) (m : Macchina) : Prop :=
  m.kernel.esecuzione = some p ∧ m.Attende p m.reg e (Custoditi K lo n)

theorem Usa.inCorso {l : Option Resa} (h : Usa img st p e K lo n m l m')
    (hm : InCorso p e K lo n m) (hU : Discosto e (Custoditi K lo n)) :
    InCorso p e K lo n m' ∧ ∀ a, l = some a →
      a.eax = a.ultimo ∧ a.kernel.esecuzione = some p ∧
        ((∃ sig g, a.chiamata = .signal sig g) ∨ ∃ sig, a.chiamata = .raise sig) := by
  obtain ⟨he, hm⟩ := hm
  have hA : Annidate lo n m.reg.eip m.reg.esp nessuno m.kernel.mem [] m.reg.eip m.reg.esp
      m.kernel.mem := ⟨rfl, rfl, nofun⟩
  cases h with
  | programma hcs hx => exact ⟨⟨he, hm.esegue he hcs rfl rfl rfl⟩, fun _ ha => by cases ha⟩
  | passaggio h hposto hrun he' =>
    obtain ⟨r₁, hm₁, hp⟩ := h.attende hm he hU (fun _ hb => Or.inr hb) (capienti_posto K hposto)
    have hA₁ := hA.prosegue hp nofun hposto
    rw [List.append_nil] at hA₁
    obtain ⟨r', hm', -⟩ := annidate_corsa hrun hm₁ hU hA₁ nofun
    exact ⟨⟨he', hm'.reg he' ▸ hm'⟩, fun _ ha => by cases ha⟩
  | resa hd hnome hc hk h hcons h' hposto hrun he₂ hrun' he₃ =>
    rename_i m₁ m₂ m₃ d c k t cs v w alRet
    subst hk
    have hpassa := resa_passa hm he hd hnome hc h hcons h'
    obtain ⟨r₁, hm₁, hp⟩ := hpassa.attende hm he hU (fun _ hb => Or.inr hb)
      (capienti_posto K hposto)
    have hA₁ := hA.prosegue hp nofun hposto
    rw [List.append_nil] at hA₁
    obtain ⟨r₂, hm₂, -, hv⟩ := porta_corsa hrun hm₁ hU hA₁ nofun fun _ => hp.eax
    have hreg₂ : m₂.reg = r₂ := hm₂.reg he₂
    subst hreg₂
    have hsomma : (m₂.somma alRet).Attende p (m₂.somma alRet).reg e (Custoditi K lo n) :=
      hm₂.esegue he₂ rfl rfl rfl rfl
    obtain ⟨hm₃, hw⟩ := porta_chiusa hrun' hsomma hU (hv rfl) he₃
    refine ⟨⟨he₃, hm₃.esegue he₃ rfl rfl rfl rfl⟩, fun a ha => ?_⟩
    obtain rfl := Option.some.inj ha
    exact ⟨hw, (syscalle_dentro hd).2.esecuzione.trans he, hc⟩

end

/-- **What comes back from `signal` and `raise`.** In every sequence of calls of a process of
level 3, the process gets the result of a call exactly when the right word was in `EAX` before. The
same holds of `signal(s, signal(s, g))`, unless `s` is no signal. -/
theorem risultati_resi {img : Immagine} {st : Stub} {p : Pid} {e lo : Word} {n : Nat}
    {K : Word → Prop} {m m' : Macchina} {ls : List (Option Resa)}
    (he : m.kernel.esecuzione = some p) (hcpl : m.cpl ≠ 0)
    (htss : m.kernel.tssEsp0 = (m.kernel.des (some p)).stk 0)
    (hstk : (m.kernel.des (some p)).stk 0 = e + 20)
    (hl : m.kernel.Lontani p (Riservati e (Custoditi K lo n))) (hU : Discosto e (Custoditi K lo n))
    (h : Run (Usa img st p e K lo n) m ls m') (a : Resa) (ha : some a ∈ ls) :
    (a.Giusta ↔ a.Coincide p) ∧ ∀ sig g, a.chiamata = .signal sig g →
      (a.Ripristina p sig g ↔ segnale sig = none ∨ a.Coincide p) := by
  have hm : InCorso p e K lo n m := ⟨he, fun _ => rfl, fun hne => absurd he hne, hcpl, hstk, hl,
    fun q hq => by
      obtain rfl := Option.some.inj (he.symm.trans hq)
      exact htss⟩
  obtain ⟨heax, hek, hc⟩ : a.eax = a.ultimo ∧ a.kernel.esecuzione = some p ∧
      ((∃ sig g, a.chiamata = .signal sig g) ∨ ∃ sig, a.chiamata = .raise sig) := by
    clear he hcpl htss hstk hl
    induction h with
    | nil => cases ha
    | cons hstep _ ih =>
      obtain ⟨hm', hlabel⟩ := hstep.inCorso hm hU
      rcases List.mem_cons.mp ha with rfl | ha
      · exact hlabel a rfl
      · exact ih ha hm'
  constructor
  · rw [Resa.Giusta, Resa.Coincide, risultato_atteso hc hek, Option.some_inj, heax, eq_comm]
  · intro sig g hsig
    rw [Resa.Coincide, ← heax]
    exact Resa.ripristina_iff hek hsig

/-! A process calls `signal(5, 0x61000)` with some word in `EAX`; the handler was `0x60000`. -/

def chiede (eax : Word) : Macchina where
  reg := { (dueSegnali 0x40000 0).reg with eax }
  kernel := { (dueSegnali 0x40000 0).kernel with
    mem := (utente []).kernel.mem.writeWords 0x40000 [11, 0x60100, 5, 0x61000] }

/-- At the entry of `ki_signal`. -/
def chiedeKi (eax : Word) : Kernel := (syscalle immagine (chiede eax).interruzione).2.kernel

/-- After `int 0x30`. -/
def chiesto (eax : Word) : Macchina := (chiede eax).dopoChiamata immagine (.signal 5 0x61000)

theorem chiede_fatti {eax : Word} (h : eax = 7 ∨ eax = 0x60000) :
    riesce (Pitos.signalsCheck (kiSignal 5 0x61000 (chiedeKi eax)).2) = true ∧
      ((kiSignal 5 0x61000 (chiedeKi eax)).2.des
        (kiSignal 5 0x61000 (chiedeKi eax)).2.esecuzione).sigMask = 0 ∧
      (chiesto eax).kernel.esecuzione = some 1 ∧
      ((chiedeKi eax).des (some 1)).sigHandlers 5 = 0x60000 := by
  rcases h with rfl | rfl
  all_goals
    refine ⟨?_, ?_, ?_, ?_⟩
    all_goals decide +kernel

theorem chiede_numero (eax : Word) : (chiede eax).Numero immagine ⟨.signal, 2, 11⟩ := by
  have hcima : (chiede eax).cima = (chiede 0).cima := rfl
  have hbase : (chiede eax).base = (chiede 0).base := rfl
  have hcpl : (chiede eax).cpl = (chiede 0).cpl := rfl
  have hT : immagine.Caricata (chiede eax).kernel.mem := by
    have hch := Mem.writeWords_changes (utente []).kernel.mem 0x40000 [11, 0x60100, 5, 0x61000]
      (show 4 * 4 < 2 ^ 32 by decide)
    apply (sopra_caricata immagine _).congr hch
    intro b hb hb'
    rw [tabelle_length] at hb
    replace hb : Mem.Within 0x32000 936 b := hb
    replace hb' : Mem.Within 0x40000 16 b := hb'
    unfold Mem.Within at *
    bv_omega
  have hlibera : (chiede eax).PilaLibera immagine 28 :=
    utente_libera (hbase.trans (by decide)) (hcpl.trans (by decide)) (Or.inl rfl)
  exact .di_cima (by decide) hT hlibera (by decide) (hcima.trans (by decide)) (by decide)

/-- The call, with nothing else going on. -/
theorem chiede_usa {eax : Word} (h : eax = 7 ∨ eax = 0x60000) : ∃ m' w,
    Usa immagine stubRespin 1 0x20FEC descrittori 0x3F000 0x2000 (chiede eax)
      (some ⟨.signal 5 0x61000, chiedeKi eax, eax, w⟩) m' := by
  obtain ⟨hriesce, hmask, he, -⟩ := chiede_fatti h
  have hcons := (senza_segnali 1 nessuno hmask).2
  have h' := signalsCheck_eq (c := (syscalle immagine (chiede eax).interruzione).2) hriesce
  have hfine : Relation.ReflTransGen
      (Porta immagine stubRespin 1 0x20FEC descrittori 0x3F000 0x2000)
      (((chiesto eax).somma 0x60108, []), eax) (((chiesto eax).somma 0x60108, []), eax) := .refl
  exact ⟨_, _, .resa (chiede_numero eax) rfl (Or.inl ⟨5, 0x61000, rfl⟩) rfl rfl hcons h' (by simp)
    .refl he hfine he⟩

theorem chiede_lontani (eax : Word) : (chiede eax).kernel.Lontani 1
    (Riservati 0x20FEC (Custoditi descrittori 0x3F000 0x2000)) :=
  (dueSegnali_lontani 0x40000 0).of_intatti (.of_des rfl)

theorem chiede_inCorso (eax : Word) :
    InCorso 1 0x20FEC descrittori 0x3F000 0x2000 (chiede eax) := by
  have htss : (dueSegnali 0x40000 0).kernel.tssEsp0 =
      ((dueSegnali 0x40000 0).kernel.des (some 1)).stk 0 := by decide
  have hstk : ((dueSegnali 0x40000 0).kernel.des (some 1)).stk 0 = 0x20FEC + 20 := by decide
  have hcpl : (dueSegnali 0x40000 0).cpl ≠ 0 := by decide
  refine ⟨rfl, fun _ => rfl, fun hne => absurd rfl hne, hcpl, hstk, chiede_lontani eax, fun q hq => ?_⟩
  have hq' : some 1 = some q := hq
  obtain rfl := Option.some.inj hq'
  exact htss

/-- The word in `EAX` happens to be the handler. -/
theorem risultati_resi_corsa : ∃ m' a,
    Run (Usa immagine stubRespin 1 0x20FEC descrittori 0x3F000 0x2000) (chiede 0x60000) [some a] m' ∧
      a.Giusta ∧ a.Ripristina 1 5 0x61000 := by
  obtain ⟨m', w, h⟩ := chiede_usa (Or.inr rfl)
  obtain ⟨-, -, -, hgest⟩ := chiede_fatti (Or.inr rfl)
  obtain ⟨he, hm⟩ := chiede_inCorso 0x60000
  obtain ⟨hgiusta, hrip⟩ := risultati_resi he hm.livello (hm.tss 1 he) hm.stk hm.lontani
    pile_apparte.discosta (.single h) _ (List.mem_singleton.mpr rfl)
  have hcoin : Resa.Coincide 1 ⟨.signal 5 0x61000, chiedeKi 0x60000, 0x60000, w⟩ := hgest.symm
  exact ⟨_, _, .single h, hgiusta.mpr hcoin, (hrip 5 0x61000 rfl).mpr (Or.inr hcoin)⟩

/-- The process gets its own 7 back, and a second call with it does not give it back its handler. -/
theorem risultato_perduto : ∃ m' a,
    Run (Usa immagine stubRespin 1 0x20FEC descrittori 0x3F000 0x2000) (chiede 7) [some a] m' ∧
      a.chiamata.risultato a.kernel = some 0x60000 ∧ a.eax = 7 ∧ ¬ a.Ripristina 1 5 0x61000 := by
  obtain ⟨m', w, h⟩ := chiede_usa (Or.inl rfl)
  obtain ⟨-, -, -, hgest⟩ := chiede_fatti (Or.inl rfl)
  have hlabel := (h.inCorso (chiede_inCorso 7) pile_apparte.discosta).2 _ rfl
  generalize ha : Resa.mk (.signal 5 0x61000) (chiedeKi 7) 7 w = a at h hlabel
  have hchiamata : a.chiamata = .signal 5 0x61000 := by rw [← ha]
  have heax : a.eax = 7 := by rw [hlabel.1, ← ha]
  have hatteso : a.chiamata.atteso (a.kernel.des (some 1)) = 0x60000 := by
    rw [← ha]
    exact hgest
  obtain ⟨-, he, hc⟩ := hlabel
  refine ⟨m', a, .single h, ?_, heax, fun hrip => ?_⟩
  · rw [risultato_atteso hc he, hatteso]
  · rcases (Resa.ripristina_iff he hchiamata).mp hrip with hno | heq
    · exact absurd hno (by decide)
    · rw [heax, hatteso] at heq
      exact absurd heq (by decide)

end Pitos
