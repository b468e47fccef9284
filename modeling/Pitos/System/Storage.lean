import Pitos.Properties.Outstanding
import Pitos.System.Requests

/-!
# The kernel's own use of the heap

`Custodita` is the invariant of the machine: what the kernel has taken from the heap and not given
back (`tenute`), the record of each sleeping process and the stacks of every activation, are
outstanding blocks of the heap, each once, and the stacks of the live processes are among them.
From it follow `memoria_separata`, on where this memory lies and that the kernel's calls of the
heap are always in order, and `attivazioni_finite`: stacks are never given back, so the arena has
room for 36 activations in the life of the system.

Both hold of the runs in which the idle process lives and the processes leave the heap in order:
they ask for 0 to 512000 bytes, free only outstanding pointers that are neither stacks nor the
records of sleeping processes, and write only inside blocks of their own. A process that frees a
block of a stack gives it back to the arena, and neither result says anything about what follows.
-/

namespace Pitos

open Lib

variable {s t : Kernel} {a b : Astratto} {ts : List Atto} {p q : Pid} {e : Evento} {pile : Pile}
  {stk : Fin 3 → Word}

/-! ## The stacks of the live processes -/

/-- Each live process has three of the stacks handed out for itself. -/
structure Coperti (s : Kernel) (pile : Pile) : Prop where
  pile : ∀ p, s.Vivo p → (s.des (some p)).stk ∈ pile
  propri : ∀ p q, s.Vivo p → s.Vivo q → (s.des (some p)).stk = (s.des (some q)).stk → p = q

namespace Coperti

/-- Nobody is activated. -/
theorem resta (h : Coperti s pile) (hv : ∀ p, t.Vivo p → s.Vivo p) (hst : Intatti s t) :
    Coperti t pile := by
  refine ⟨fun p hp => ?_, fun p q hp hq he => ?_⟩
  · rw [(hst (some p)).2]
    exact h.pile p (hv p hp)
  · rw [(hst (some p)).2, (hst (some q)).2] at he
    exact h.propri p q (hv p hp) (hv q hq) he

/-- One process is activated, with stacks of its own. -/
theorem attiva (h : Coperti s pile) (hstk : stk ∉ pile) (hq : (t.des (some q)).stk = stk)
    (hv : ∀ p, p ≠ q → t.Vivo p → s.Vivo p)
    (hst : ∀ p, p ≠ q → (t.des (some p)).stk = (s.des (some p)).stk) :
    Coperti t (stk :: pile) := by
  have hold : ∀ p, p ≠ q → t.Vivo p → (t.des (some p)).stk ∈ pile := by
    intro p hne hp
    rw [hst p hne]
    exact h.pile p (hv p hne hp)
  refine ⟨fun p hp => ?_, fun p r hp hr he => ?_⟩
  · by_cases hpq : p = q
    · rw [hpq, hq]
      exact List.mem_cons_self
    · exact List.mem_cons_of_mem _ (hold p hpq hp)
  · by_cases hpq : p = q
    · by_cases hrq : r = q
      · rw [hpq, hrq]
      · rw [hpq, hq] at he
        exact absurd (he ▸ hold r hrq hr) hstk
    · by_cases hrq : r = q
      · rw [hrq, hq] at he
        exact absurd (he ▸ hold p hpq hp) hstk
      · rw [hst p hpq, hst r hrq] at he
        exact h.propri p r (hv p hpq hp) (hv r hrq hr) he

theorem attivata {f k idx risu : Word} {prec level : Int} (h : Coperti s pile) (hR : Rappr s a)
    (hI : Inv a) (hstk : s.procCount ≠ MAXPROCS → stk ∉ pile)
    (heq : kiActivatePLevel f k prec level idx risu stk s = .ok t) :
    Coperti t (alloca s stk pile) := by
  unfold alloca
  by_cases hlt : s.procCount = MAXPROCS
  · simp only [kiActivatePLevel, hlt, if_true] at heq ⊢
    obtain rfl := Except.ok.inj heq
    exact ⟨h.pile, h.propri⟩
  · rw [if_neg hlt]
    obtain ⟨t', q, heq', hat⟩ := hR.kiActivatePLevel_attivato hI f k prec level idx risu stk hlt
    obtain rfl := Except.ok.inj (heq'.symm.trans heq)
    obtain ⟨pre, -, haltri⟩ := hat.altri
    have hdes : ∀ r, r ≠ q → (t'.des (some r)).slegato = (s.des (some r)).slegato := fun r hr =>
      (haltri (some r) fun e => hr (Option.some.inj e)).2
    refine h.attiva (q := q) (hstk hlt) ?_ (fun r hr hv => ?_) fun r hr => ?_
    · have hnew := congrArg DesProc.stk (kiActivatePLevel_nuovo hlt hat.trovato heq)
      exact hnew
    · have hstato := congrArg DesProc.stato (hdes r hr)
      change (t'.des (some r)).stato = (s.des (some r)).stato at hstato
      unfold Kernel.Vivo at hv ⊢
      rwa [hstato] at hv
    · have hold := congrArg DesProc.stk (hdes r hr)
      exact hold

/-- An entry that is not an activation. -/
theorem evento (h : Coperti s pile) (hR : Rappr s a) (hA : Regolare a) (heq : passo s e = .ok t)
    (hts : Traccia s p e ts) (hr : Run Mossa a ts b) (hRt : Rappr t b) (he : ¬ e.Attiva) :
    Coperti t pile := by
  refine h.resta (fun q hq => ?_) (passo_intatti heq he)
  have hsub := vivi_subset hr hA.inv (hts.attiva he)
  exact hR.vivo_iff.mpr (hsub (hRt.vivo_iff.mp hq))

/-- The call of `ki_activate_p` and the way out of it. -/
theorem chiamata {f k idx risu : Word} {prec : Int} (h : Coperti s pile) (hR : Rappr s a)
    (hA : Regolare a) (he : a.esecuzione = some p) (hp : p ≠ idle)
    (hstk : s.procCount ≠ MAXPROCS → stk ∉ pile)
    (heq : passo s (.chiamata (.activateP f k prec idx risu stk)) = .ok t) :
    Coperti t (alloca s stk pile) := by
  obtain ⟨s₁, h₁, h₂⟩ := bind_ok heq
  have hC₁ := h.attivata hR hA.inv hstk h₁
  obtain ⟨s₁', t₁, b₁, heq₁, ht₁, hm₁, hR₁⟩ := hR.esegui_mossa hA.inv he hp
    (.activateP f k prec idx risu stk) trivial id
  obtain rfl := Except.ok.inj (heq₁.symm.trans h₁)
  have hchiude : t₁ ≠ .chiude := ht₁.diChiamata.1
  have hA₁ := hA.mossa hm₁ hchiude (hA.muto he hp)
  obtain ⟨t', sig, b', heq', hsig, hrun, hRt', -⟩ :=
    hR₁.uscita_eq hA₁ (hm₁.muto hA.inv hchiude (hA.muto he hp))
  obtain rfl := Except.ok.inj (heq'.symm.trans h₂)
  refine hC₁.resta (fun q hq => ?_) (uscita_intatti heq')
  exact hR₁.vivo_iff.mpr (vivi_subset hrun hA₁.inv hsig.attiva (hRt'.vivo_iff.mp hq))

/-- `kernel_init` leaves `dummyproc` and its stacks. -/
theorem inizio {s₀ : Kernel} {dummy risu : Word} (hcar : Caricato s₀)
    (h : kernelInit dummy risu stk s₀ = .ok s) (hR : Rappr s a) (hini : Iniziale a) :
    Coperti s [stk] := by
  have hC := contate_inizio hcar h hR hini
  have hrese : Rese s [stk] := hC.rese rfl
  have hv : s.vivi = {idle} := hR.vivi_eq.trans hini.vivi
  unfold Rese at hrese
  rw [hv, Finset.singleton_val, Multiset.map_singleton] at hrese
  have hstk : (s.des (some idle)).stk = stk := by
    have hmem : (s.des (some idle)).stk ∈ (([stk] : Pile) : Multiset (Fin 3 → Word)) :=
      hrese ▸ Multiset.mem_singleton_self _
    exact List.mem_singleton.mp (Multiset.mem_coe.mp hmem)
  have hidle : ∀ p, s.Vivo p → p = idle := by
    intro p hp
    have hmem : p ∈ a.vivi := hR.vivo_iff.mp hp
    rw [hini.vivi] at hmem
    exact Finset.mem_singleton.mp hmem
  refine ⟨fun p hp => ?_, fun p q hp hq _ => ?_⟩
  · rw [hidle p hp, hstk]
    exact List.mem_cons_self
  · rw [hidle p hp, hidle q hq]

end Coperti

/-! ## What the kernel holds -/

namespace Impianto

open Heap (Registro)

variable {x y : Impianto} {h h' : Heap × Registro} {cs : List Heap.Chiamata} {l : Lavoro}
  {V L : List Addr} {P : List (Word × Nat)}

def record (z : Addr) : Word × Nat := (BitVec.ofNat 32 z, sizeRichiesta)

/-- The blocks that three stacks lie in. -/
def blocchi (stk : Fin 3 → Word) : List (Word × Nat) :=
  [(stk 0 - 4096, blocco), (stk 1 - 4096, blocco), (stk 2 - 4096, blocco)]

/-- What the kernel has taken from the heap and not given back. -/
def tenute (x : Impianto) : List (Word × Nat) :=
  x.kernel.vive.map record ++ x.pile.flatMap blocchi

theorem serie_cons {e : Heap.Chiamata} (hok : serie (e :: cs) h = .ok h') :
    ∃ k, Heap.esegui h e = .ok k ∧ serie cs k = .ok h' := by
  unfold serie at hok
  rw [List.foldlM_cons] at hok
  cases he : Heap.esegui h e with
  | error r =>
    rw [he] at hok
    cases hok
  | ok k =>
    rw [he] at hok
    exact ⟨k, rfl, hok⟩

/-- An admissible call comes back and the next one follows, or memory is used up. -/
theorem serie_ammessa {e : Heap.Chiamata} (hord : Heap.Ordinato h) (he : Heap.Ammessa h.2 e)
    (hcs : ∀ k, Heap.Passo h e k → Heap.Ordinato k →
      serie cs k = .error .memoria ∨ ∃ k', serie cs k = .ok k') :
    serie (e :: cs) h = .error .memoria ∨ ∃ k, serie (e :: cs) h = .ok k := by
  unfold serie
  rw [List.foldlM_cons]
  rcases hord.passo he with hfail | ⟨k, hk, hord'⟩
  · left
    rw [hfail]
    rfl
  · rw [hk]
    exact hcs k ⟨he, hk⟩ hord'

/-- One block is taken. -/
theorem serie_prende {e : Heap.Chiamata} {n : Nat} (he : e.Prende n) (hn : n ≤ 512000)
    (hok : serie (e :: cs) h = .ok h') : ∃ p k, Heap.Passo h e k ∧ k.2 = (p, n) :: h.2 ∧
      serie cs k = .ok h' := by
  obtain ⟨k, hk, hrest⟩ := serie_cons hok
  obtain ⟨p, hp⟩ := he.esito hk
  exact ⟨p, k, ⟨he.ammessa hn, hk⟩, hp, hrest⟩

/-- The block of a stack is known from its top. -/
@[simp] theorem stack_sub (out : Registro) (j : Fin 3) :
    stack out j - 4096 = uscito out (2 - j) := BitVec.add_sub_cancel _ _

/-- Three stacks are taken. -/
theorem serie_stack (hok : serie [.vecNew blocco, .vecNew blocco, .vecNew blocco] h = .ok h') :
    Run Heap.Passo h [.vecNew blocco, .vecNew blocco, .vecNew blocco] h' ∧
      h'.2 = (blocchi (stack h'.2)).reverse ++ h.2 := by
  have hn : blocco ≤ 512000 := by decide
  obtain ⟨p₀, k₀, hs₀, hk₀, h₁⟩ := serie_prende (e := .vecNew blocco) rfl hn hok
  obtain ⟨p₁, k₁, hs₁, hk₁, h₂⟩ := serie_prende (e := .vecNew blocco) rfl hn h₁
  obtain ⟨p₂, k₂, hs₂, hk₂, h₃⟩ := serie_prende (e := .vecNew blocco) rfl hn h₂
  obtain rfl := Except.ok.inj h₃
  refine ⟨.cons hs₀ (.cons hs₁ (.single hs₂)), ?_⟩
  have hout : k₂.2 = [(p₂, blocco), (p₁, blocco), (p₀, blocco)] ++ h.2 := by
    rw [hk₂, hk₁, hk₀]
    rfl
  rw [hout]
  simp only [blocchi, stack_sub]
  rfl

/-- The records to be deleted are held; those that were are no longer. -/
theorem serie_delete (hord : Heap.Ordinato h) (hL : L.Nodup) (hLV : ∀ z ∈ L, z ∈ V)
    (hV : (V.map record ++ P).Subperm h.2) :
    (serie (L.map fun z => .delete (BitVec.ofNat 32 z)) h = .error .memoria ∨
      ∃ k, serie (L.map fun z => .delete (BitVec.ofNat 32 z)) h = .ok k) ∧
    ∀ k, serie (L.map fun z => .delete (BitVec.ofNat 32 z)) h = .ok k →
      Run Heap.Passo h (L.map fun z => .delete (BitVec.ofNat 32 z)) k ∧
        ((V.diff L).map record ++ P).Subperm k.2 := by
  induction L generalizing h V with
  | nil =>
    refine ⟨Or.inr ⟨h, rfl⟩, fun k hok => ?_⟩
    obtain rfl := Except.ok.inj hok
    exact ⟨.nil, hV⟩
  | cons z L ih =>
    obtain ⟨hz', hL'⟩ := List.nodup_cons.mp hL
    have hLV' : ∀ w ∈ L, w ∈ V.erase z := by
      intro w hw
      refine (List.mem_erase_of_ne ?_).mpr (hLV w (List.mem_cons_of_mem _ hw))
      rintro rfl
      exact hz' hw
    have hperm : (V.map record ++ P).Perm (record z :: ((V.erase z).map record ++ P)) :=
      ((List.perm_cons_erase (hLV z List.mem_cons_self)).map record).append_right P
    have hsub := hperm.subperm_right.mp hV
    have hadm : Heap.Ammessa h.2 (.delete (BitVec.ofNat 32 z)) :=
      List.mem_map_of_mem (hsub.subset List.mem_cons_self)
    -- without the record of `z` the others are still there
    have hnext : ∀ k, Heap.esegui h (.delete (BitVec.ofNat 32 z)) = .ok k →
        ((V.erase z).map record ++ P).Subperm k.2 := by
      intro k hk
      have hreg : k.2 = h.2.filter fun w => w.1 ≠ (record z).1 :=
        Heap.esegui_rende (e := .delete) (Or.inr rfl) hk
      rw [hreg]
      exact Heap.tenuti_toglie hsub hord.unici
    rw [List.map_cons]
    constructor
    · exact serie_ammessa hord hadm fun k hk hord' => (ih hord' hL' hLV' (hnext k hk.2)).1
    · intro k' hok
      obtain ⟨k, hk, hrest⟩ := serie_cons hok
      obtain ⟨hrun, hfine⟩ := (ih (hord.ok hadm hk) hL' hLV' (hnext k hk)).2 k' hrest
      rw [List.diff_cons]
      exact ⟨.cons ⟨hadm, hk⟩ hrun, hfine⟩

/-- New stacks are held as well. -/
theorem tenute_stack (stk : Fin 3 → Word) {out : Registro}
    (hT : (V.map record ++ pile.flatMap blocchi).Subperm out) :
    (V.map record ++ (stk :: pile).flatMap blocchi).Subperm ((blocchi stk).reverse ++ out) := by
  have hperm : (V.map record ++ (stk :: pile).flatMap blocchi).Perm
      (blocchi stk ++ (V.map record ++ pile.flatMap blocchi)) := by
    rw [List.flatMap_cons]
    exact List.perm_append_comm_assoc _ _ _
  refine hperm.subperm_right.mpr ?_
  exact (List.reverse_perm _).symm.subperm.append hT

/-- The stacks of an activation are taken when there is a slot for it. -/
theorem serie_attiva (hord : Heap.Ordinato h) (hok : serie (chiamateStack s) h = .ok h')
    (hT : (V.map record ++ pile.flatMap blocchi).Subperm h.2) :
    Run Heap.Passo h (chiamateStack s) h' ∧
      (V.map record ++ (alloca s (stack h'.2) pile).flatMap blocchi).Subperm h'.2 ∧
      (s.procCount ≠ MAXPROCS → stack h'.2 ∉ pile) := by
  unfold chiamateStack at hok ⊢
  unfold alloca
  by_cases hlt : s.procCount = MAXPROCS
  · rw [if_pos hlt] at hok ⊢
    obtain rfl := Except.ok.inj hok
    rw [if_pos hlt]
    exact ⟨.nil, hT, fun hne => absurd hlt hne⟩
  · rw [if_neg hlt] at hok ⊢
    rw [if_neg hlt]
    obtain ⟨hrun, hout⟩ := serie_stack hok
    refine ⟨hrun, ?_, fun _ hmem => ?_⟩
    · have hnew := tenute_stack (stack h'.2) hT
      rwa [← hout] at hnew
    · -- an old stack would be outstanding twice
      have hnd := (hord.run hrun).unici
      rw [hout, List.map_append] at hnd
      have hfst : (stack h'.2 0 - 4096, blocco) ∈ blocchi (stack h'.2) := List.mem_cons_self
      have hold : (stack h'.2 0 - 4096, blocco) ∈ h.2 :=
        hT.subset (List.mem_append_right _ (List.mem_flatMap.mpr ⟨_, hmem, hfst⟩))
      exact (List.nodup_append.mp hnd).2.2 _
        (List.mem_map_of_mem (List.mem_reverse.mpr hfst)) _ (List.mem_map_of_mem hold) rfl

/-! ## The invariant -/

/-- The kernel between `kernel_init` and `kernel_go`. -/
def InAvvio (s : Kernel) : Prop :=
  ∃ s₀ dummy risu stk s₁ avvii, Caricato s₀ ∧ kernelInit dummy risu stk s₀ = .ok s₁ ∧
    Run (fun s v t => avvia s v = .ok t) s₁ avvii s

theorem InAvvio.rappr (h : InAvvio s) : ∃ a, Rappr s a ∧ Inv a ∧ a.esecuzione = none := by
  obtain ⟨s₀, dummy, risu, stk, s₁, avvii, hcar, hinit, hrun⟩ := h
  obtain ⟨s₁', a₀, heq, hini, hR₀⟩ := kernelInit_eq hcar dummy risu stk
  obtain rfl := Except.ok.inj (heq.symm.trans hinit)
  refine hrun.invariant (I := fun s => ∃ a, Rappr s a ∧ Inv a ∧ a.esecuzione = none)
    (fun s v t ha hv => ?_) ⟨a₀, hR₀, hini.inv, hini.esecuzione⟩
  obtain ⟨a, hR, hI, he⟩ := ha
  obtain ⟨t', ts, b, heq, -, hts, hR', he'⟩ := avvia_eq hR hI he v
  obtain rfl := Except.ok.inj (heq.symm.trans hv)
  exact ⟨b, hR', Mossa.inv_run hts hI, he'⟩

structure Custodita (x : Impianto) : Prop where
  run : ∃ m cs, Run Heap.Passo (Heap.iniziale m, []) cs (x.heap, x.out)
  tenute : x.tenute.Subperm x.out
  indirizzi : ∀ z ∈ x.kernel.vive, z < 2 ^ 32
  coperti : x.momento ≠ .inizio → Coperti x.kernel x.pile
  inizio : x.momento = .inizio → Caricato x.kernel ∧ x.out = [] ∧ x.pile = []
  avvio : x.momento = .avvio → InAvvio x.kernel
  corsa : x.momento = .corsa → ∃ es, Pitos.Raggiunge IdleVivo es x.kernel

namespace Custodita

theorem ordinato (hx : Custodita x) : Heap.Ordinato (x.heap, x.out) := by
  obtain ⟨m, cs, hrun⟩ := hx.run
  exact Heap.Ordinato.corsa m hrun

theorem estende (hx : Custodita x) (hrun : Run Heap.Passo (x.heap, x.out) cs h) :
    ∃ m cs, Run Heap.Passo (Heap.iniziale m, []) cs h := by
  obtain ⟨m, cs', hrun'⟩ := hx.run
  exact ⟨m, cs' ++ cs, hrun'.append hrun⟩

/-- The running kernel. -/
theorem rappr (hx : Custodita x) (hm : x.momento = .corsa) :
    ∃ a, Rappr x.kernel a ∧ Regolare a := by
  obtain ⟨es, hes⟩ := hx.corsa hm
  obtain ⟨a, hR, hA, -⟩ := hes.segue (J := fun _ => True) (fun _ _ hv => hv) (fun _ _ => trivial)
    (fun _ _ _ _ _ _ _ => trivial) fun _ _ _ _ _ _ _ _ _ _ _ _ _ _ => trivial
  exact ⟨a, hR, hA⟩

/-- A block that is not the kernel's. -/
theorem altrui {v : Word} (hx : Custodita x) (hvive : v.toNat ∉ x.kernel.vive)
    (hpile : ∀ stk ∈ x.pile, ∀ j, v ≠ stk j - 4096) : v ∉ x.tenute.map Prod.fst := by
  intro hmem
  obtain ⟨w, hw, rfl⟩ := List.mem_map.mp hmem
  rcases List.mem_append.mp hw with hw | hw
  · obtain ⟨z, hz, rfl⟩ := List.mem_map.mp hw
    apply hvive
    have hlt := hx.indirizzi z hz
    rwa [record, BitVec.toNat_ofNat, Nat.mod_eq_of_lt hlt]
  · obtain ⟨stk, hstk, hw⟩ := List.mem_flatMap.mp hw
    simp only [blocchi, List.mem_cons, List.not_mem_nil, or_false] at hw
    rcases hw with rfl | rfl | rfl
    · exact hpile stk hstk 0 rfl
    · exact hpile stk hstk 1 rfl
    · exact hpile stk hstk 2 rfl

/-! ## What an entry does with the heap -/

/-- The calls of an entry are in order, what the kernel holds afterwards is outstanding, and the
addresses that came out are such as the kernel relies on. -/
theorem entra_heap (hx : Custodita x) (hm : x.momento = .corsa) (hl : x.Lecita e)
    (hok : serie (chiamate x.kernel e) (x.heap, x.out) = .ok h) :
    Run Heap.Passo (x.heap, x.out) (chiamate x.kernel e) h ∧
      ((x.kernel.viveDopo (collega h.2 e)).map record ++
        (pileDopo x.kernel h.2 x.pile e).flatMap blocchi).Subperm h.2 ∧
      (∀ z ∈ x.kernel.viveDopo (collega h.2 e), z < 2 ^ 32) ∧
      Possibile x.kernel (collega h.2 e) := by
  have hord := hx.ordinato
  have hT := hx.tenute
  have hnulla : serie [] (x.heap, x.out) = .ok h →
      Run Heap.Passo (x.heap, x.out) [] h ∧ x.tenute.Subperm h.2 := by
    intro hok
    obtain rfl := Except.ok.inj hok
    exact ⟨.nil, hT⟩
  cases e with
  | chiamata c =>
    obtain ⟨hp, hint, hdisc⟩ := hl
    cases c with
    | activateP f k prec idx risu stk =>
      obtain ⟨hrun, hT', -⟩ := serie_attiva hord hok hT
      have hprec : Intero prec := hint
      exact ⟨hrun, hT', hx.indirizzi, hp, hprec, trivial⟩
    | delay n z =>
      have hn : Intero n := hint
      obtain ⟨v, k, hstep, hout, hrest⟩ :=
        serie_prende (e := .new sizeRichiesta) (n := sizeRichiesta) rfl (by decide) hok
      obtain rfl := Except.ok.inj hrest
      have hv : uscito k.2 0 = v := by
        rw [hout]
        rfl
      have hrec : record v.toNat = (v, sizeRichiesta) := by
        rw [record, BitVec.ofNat_toNat, BitVec.setWidth_eq]
      have hfresco : v.toNat ∉ x.kernel.vive := by
        intro hmem
        have hnd := (hord.ok hstep.1 hstep.2).unici
        rw [hout, List.map_cons, List.nodup_cons] at hnd
        apply hnd.1
        have hold : record v.toNat ∈ x.out :=
          hT.subset (List.mem_append_left _ (List.mem_map_of_mem hmem))
        rw [hrec] at hold
        exact List.mem_map_of_mem hold
      refine ⟨.single hstep, ?_, ?_, hp, hn, ?_⟩
      · simp only [collega, Kernel.viveDopo, pileDopo, hv, List.map_cons, hrec, List.cons_append]
        rw [hout]
        exact (List.subperm_cons _).mpr hT
      · intro w hw
        simp only [collega, Kernel.viveDopo, hv] at hw
        rcases List.mem_cons.mp hw with rfl | hw
        · exact v.isLt
        · exact hx.indirizzi w hw
      · show (uscito k.2 0).toNat ∉ x.kernel.vive
        rwa [hv]
    | malloc size p r =>
      have hint' : Intero size := hint
      obtain ⟨hsize, hmax⟩ := hdisc
      obtain ⟨v, k, hstep, hout, hrest⟩ :=
        serie_prende (e := .malloc size.toNat) (n := size.toNat) rfl (by omega) hok
      obtain rfl := Except.ok.inj hrest
      refine ⟨.single hstep, ?_, hx.indirizzi, hp, hint', trivial⟩
      rw [hout]
      exact hT.trans (List.sublist_cons_self _ _).subperm
    | free v =>
      by_cases hv : v = 0
      · simp only [chiamate, if_pos hv] at hok ⊢
        obtain ⟨hrun, hT'⟩ := hnulla hok
        exact ⟨hrun, hT', hx.indirizzi, hp, hint, trivial⟩
      · obtain ⟨hout, hvive, hpile⟩ := hdisc.resolve_left hv
        simp only [chiamate, if_neg hv] at hok ⊢
        obtain ⟨k, hk, hrest⟩ := serie_cons hok
        obtain rfl := Except.ok.inj hrest
        refine ⟨.single ⟨hout, hk⟩, ?_, hx.indirizzi, hp, hint, trivial⟩
        rw [Heap.esegui_rende (e := .free) (Or.inl rfl) hk]
        exact Heap.tenuti_resta hT (hx.altrui hvive hpile)
    | _ =>
      obtain ⟨hrun, hT'⟩ := hnulla hok
      exact ⟨hrun, hT', hx.indirizzi, hp, hint, trivial⟩
  | tick =>
    obtain ⟨a, hR, hA⟩ := hx.rappr hm
    obtain ⟨hnd, hvivi⟩ := scaduti_vivi hR hA.inv (x.kernel.vive.length + 1)
    obtain ⟨hrun, hT'⟩ := (serie_delete hord hnd hvivi hT).2 h hok
    exact ⟨hrun, hT', fun z hz => hx.indirizzi z (List.diff_subset _ _ hz), trivial⟩
  | _ =>
    obtain ⟨hrun, hT'⟩ := hnulla hok
    exact ⟨hrun, hT', hx.indirizzi, hl⟩

/-! ## Steps -/

theorem accende_ok {m : Momento} {f : (Fin 3 → Word) → Kernel → Esito Kernel}
    (h : x.accende m cs f = some y) : serie cs (x.heap, x.out) = .ok (y.heap, y.out) ∧
      f (stack y.out) x.kernel = .ok y.kernel ∧ y.momento = m ∧
      y.pile = if cs.isEmpty then x.pile else stack y.out :: x.pile := by
  unfold accende at h
  split at h
  · cases h
  · rename_i heap out hs
    split at h
    · cases h
    · rename_i s hf
      obtain rfl := Option.some.inj h
      exact ⟨hs, hf, rfl, rfl⟩

theorem entra_ok (h : x.entra e = some y) :
    serie (chiamate x.kernel e) (x.heap, x.out) = .ok (y.heap, y.out) ∧
      Pitos.passo x.kernel (collega y.out e) = .ok y.kernel ∧ y.momento = .corsa ∧
      y.pile = pileDopo x.kernel y.out x.pile e := by
  unfold entra at h
  split at h
  · cases h
  · rename_i heap out hs
    split at h
    · cases h
    · rename_i s hf
      obtain rfl := Option.some.inj h
      exact ⟨hs, hf, rfl, rfl⟩

/-- `kernel_init`. -/
theorem init (hx : Custodita x) (hm : x.momento = .inizio) {dummy risu : Word}
    (hy : x.accende .avvio [.vecNew blocco, .vecNew blocco, .vecNew blocco]
      (kernelInit dummy risu) = some y) : Custodita y := by
  obtain ⟨hcar, hout, hpile⟩ := hx.inizio hm
  obtain ⟨hs, hinit, hmom, hpile'⟩ := accende_ok hy
  obtain ⟨hrun, hk⟩ := serie_stack hs
  obtain ⟨s', a, heq, hini, hR⟩ := kernelInit_eq hcar dummy risu (stack y.out)
  obtain rfl := Except.ok.inj (heq.symm.trans hinit)
  have hvive : y.kernel.vive = [] := hR.vive.trans hini.vive
  have hpila : y.pile = [stack y.out] := by
    rw [hpile', hpile]
    rfl
  refine ⟨hx.estende hrun, ?_, fun z hz => ?_, fun _ => ?_,
    fun hm' => (nomatch hmom.symm.trans hm'), fun _ => ?_,
    fun hm' => (nomatch hmom.symm.trans hm')⟩
  · unfold Impianto.tenute
    have hT : (([] : List Addr).map record ++ ([] : Pile).flatMap blocchi).Subperm x.out := by
      rw [List.map_nil, List.flatMap_nil, List.append_nil]
      exact List.nil_subperm
    have hnew := tenute_stack (stack y.out) hT
    rw [hvive, hpila]
    rwa [← show y.out = _ from hk] at hnew
  · rw [hvive] at hz
    cases hz
  · rw [hpila]
    exact Coperti.inizio hcar hinit hR hini
  · exact ⟨x.kernel, dummy, risu, stack y.out, y.kernel, [], hcar, hinit, .nil⟩

/-- A call of `cmain`. -/
theorem avvia {v : Avvio} (h : InAvvio s) (heq : avvia s v = .ok t) : InAvvio t := by
  obtain ⟨s₀, dummy, risu, stk, s₁, avvii, hcar, hinit, hrun⟩ := h
  exact ⟨s₀, dummy, risu, stk, s₁, avvii ++ [v], hcar, hinit, hrun.append (.single heq)⟩

theorem attiva (hx : Custodita x) (hm : x.momento = .avvio) {f k idx risu : Word}
    {prec level : Int} (hy : x.accende .avvio (chiamateStack x.kernel) (fun stk s =>
      Pitos.avvia s (.attiva f k prec level idx risu stk)) = some y) : Custodita y := by
  obtain ⟨a, hR, hI, he⟩ := (hx.avvio hm).rappr
  obtain ⟨hs, hav, hmom, hpile⟩ := accende_ok hy
  obtain ⟨hrun, hT, hnew⟩ := serie_attiva hx.ordinato hs hx.tenute
  have hvive := (StessaCoda.avvia hav).2.2
  have hpila : y.pile = alloca x.kernel (stack y.out) x.pile := by
    rw [hpile]
    unfold alloca chiamateStack
    by_cases hlt : x.kernel.procCount = MAXPROCS
    · rw [if_pos hlt, if_pos hlt]
      rfl
    · rw [if_neg hlt, if_neg hlt]
      rfl
  refine ⟨hx.estende hrun, ?_, fun w hw => ?_, fun _ => ?_,
    fun hm' => (nomatch hmom.symm.trans hm'), fun _ => avvia (hx.avvio hm) hav,
    fun hm' => (nomatch hmom.symm.trans hm')⟩
  · unfold Impianto.tenute
    rw [hvive, hpila]
    exact hT
  · rw [hvive] at hw
    exact hx.indirizzi w hw
  · rw [hpila]
    exact (hx.coperti (by rw [hm]; decide)).attivata hR hI hnew hav

theorem semIni (hx : Custodita x) (hm : x.momento = .avvio) {valore : Int} {idx risu : Word}
    (hy : x.accende .avvio [] (fun _ s => Pitos.avvia s (.semIni valore idx risu)) = some y) :
    Custodita y := by
  obtain ⟨hs, hav, hmom, hpile⟩ := accende_ok hy
  obtain ⟨hheap, hout⟩ := Prod.mk.inj (Except.ok.inj hs)
  have hvive := (StessaCoda.avvia hav).2.2
  have hcop := hx.coperti (by rw [hm]; decide)
  refine ⟨hheap ▸ hout ▸ hx.run, ?_, fun w hw => ?_, fun _ => ?_,
    fun hm' => (nomatch hmom.symm.trans hm'), fun _ => avvia (hx.avvio hm) hav,
    fun hm' => (nomatch hmom.symm.trans hm')⟩
  · unfold Impianto.tenute
    rw [hvive, hpile, ← hout]
    exact hx.tenute
  · rw [hvive] at hw
    exact hx.indirizzi w hw
  · have hkernel : y.kernel = kiSemIni valore idx risu x.kernel := (Except.ok.inj hav).symm
    have hdes : y.kernel.des = x.kernel.des := by
      rw [hkernel]
      unfold kiSemIni
      split <;> rfl
    rw [hpile]
    refine hcop.resta (fun p hp => ?_) (.of_des hdes)
    unfold Kernel.Vivo at hp ⊢
    rwa [hdes] at hp

/-- `kernel_go`. -/
theorem go (hx : Custodita x) (hm : x.momento = .avvio)
    (hy : x.accende .corsa [] (fun _ s => kernelGo s) = some y) : Custodita y := by
  obtain ⟨a, hR, hI, he⟩ := (hx.avvio hm).rappr
  obtain ⟨hs, hgo, hmom, hpile⟩ := accende_ok hy
  obtain ⟨hheap, hout⟩ := Prod.mk.inj (Except.ok.inj hs)
  have hvive := (StessaCoda.kernelGo hgo).2.2
  have hcop := hx.coperti (by rw [hm]; decide)
  obtain ⟨t, b, heq, hmossa, hRt, -⟩ := kernelGo_eq hR hI he
  obtain rfl := Except.ok.inj (heq.symm.trans hgo)
  refine ⟨hheap ▸ hout ▸ hx.run, ?_, fun w hw => ?_, fun _ => ?_,
    fun hm' => (nomatch hmom.symm.trans hm'), fun hm' => (nomatch hmom.symm.trans hm'), fun _ => ?_⟩
  · unfold Impianto.tenute
    rw [hvive, hpile, ← hout]
    exact hx.tenute
  · rw [hvive] at hw
    exact hx.indirizzi w hw
  · rw [hpile]
    refine hcop.resta (fun p hp => ?_) (kernelGo_intatti hgo)
    rw [hR.vivo_iff, ← show Atto.vivi .parte a.vivi = a.vivi from rfl, ← hmossa.vivi_eq hI]
    exact hRt.vivo_iff.mp hp
  · obtain ⟨s₀, dummy, risu, stk, s₁, avvii, hcar, hinit, hrun⟩ := hx.avvio hm
    exact ⟨[], y.kernel, ⟨s₀, dummy, risu, stk, s₁, avvii, x.kernel, hcar, hinit, hrun, hgo⟩, .nil⟩

/-- An entry that leaves the idle process alive. -/
theorem entra (hx : Custodita x) (hm : x.momento = .corsa) (hl : x.Lecita e)
    (hy : x.entra e = some y) (hv : y.kernel.Vivo idle) : Custodita y := by
  obtain ⟨a, hR, hA⟩ := hx.rappr hm
  obtain ⟨hs, hok, hmom, hpile⟩ := entra_ok hy
  obtain ⟨hrun, hT, hind, hposs⟩ := hx.entra_heap hm hl hs
  have hvive := passo_vive hok
  have hcop := hx.coperti (by rw [hm]; decide)
  obtain ⟨p, ts, b, he, hts, hmosse, hRt, -⟩ := hR.mosse hA hposs hok hv
  refine ⟨hx.estende hrun, ?_, fun w hw => ?_, fun _ => ?_,
    fun hm' => (nomatch hmom.symm.trans hm'), fun hm' => (nomatch hmom.symm.trans hm'), fun _ => ?_⟩
  · unfold Impianto.tenute
    rw [hvive, hpile]
    exact hT
  · rw [hvive] at hw
    exact hind w hw
  · rw [hpile]
    by_cases hat : (collega y.out e).Attiva
    · obtain ⟨f, h, prec, idx, risu, stk, rfl⟩ :
          ∃ f h prec idx risu stk, e = .chiamata (.activateP f h prec idx risu stk) := by
        cases e with
        | chiamata c =>
          cases c with
          | activateP f h prec idx risu stk => exact ⟨f, h, prec, idx, risu, stk, rfl⟩
          | _ => exact absurd hat id
        | _ => exact absurd hat id
      obtain ⟨⟨p', hesec, hp⟩, -, -⟩ := hposs
      have he' : a.esecuzione = some p' := hR.esecuzione.symm.trans hesec
      obtain ⟨-, -, hnew⟩ := serie_attiva hx.ordinato hs hx.tenute
      exact hcop.chiamata hR hA he' hp hnew hok
    · have hpila : pileDopo x.kernel y.out x.pile e = x.pile := by
        cases e with
        | chiamata c =>
          cases c with
          | activateP f h prec idx risu stk => exact absurd trivial hat
          | _ => rfl
        | _ => rfl
      rw [hpila]
      exact hcop.evento hR hA hok hts hmosse hRt hat
  · obtain ⟨es, s₀, hs₀, hes⟩ := hx.corsa hm
    refine ⟨es ++ [collega y.out e], s₀, hs₀, hes.append (.single ⟨hposs, fun t ht => ?_, hok⟩)⟩
    obtain rfl := Except.ok.inj (hok.symm.trans ht)
    exact hv

/-- A byte written by the owner of a block. -/
theorem scrive (hx : Custodita x) {w : Word} {v : BitVec 8}
    (hw : Heap.Ammessa x.out (.scrive w v)) :
    Custodita { x with heap := { x.heap with mem := x.heap.mem.write8 w v } } :=
  ⟨hx.estende (.single ⟨hw, rfl⟩), hx.tenute, hx.indirizzi, hx.coperti, hx.inizio, hx.avvio,
    hx.corsa⟩

theorem passo (hx : Custodita x) (h : Passo x l y) : Custodita y := by
  obtain ⟨hamm, hy, hv⟩ := h
  cases l with
  | init dummy risu =>
    simp only [lavora] at hy
    split at hy
    · rename_i hm
      exact hx.init hm hy
    · cases hy
  | attiva f k prec level idx risu =>
    simp only [lavora] at hy
    split at hy
    · rename_i hm
      exact hx.attiva hm hy
    · cases hy
  | semIni valore idx risu =>
    simp only [lavora] at hy
    split at hy
    · rename_i hm
      exact hx.semIni hm hy
    · cases hy
  | go =>
    simp only [lavora] at hy
    split at hy
    · rename_i hm
      exact hx.go hm hy
    · cases hy
  | entra e =>
    simp only [lavora] at hy
    split at hy
    · rename_i hm
      refine hx.entra hm hamm hy (hv ?_)
      rw [(entra_ok hy).2.2.1]
      decide
    · cases hy
  | scrive w v =>
    obtain rfl := Option.some.inj hy
    exact hx.scrive hamm

theorem spenta (h : Spenta x) : Custodita x := by
  obtain ⟨hm, hcar, ⟨m, hheap⟩, hout, hpile⟩ := h
  refine ⟨⟨m, [], ?_⟩, ?_, fun z hz => ?_, fun hne => absurd hm hne, fun _ => ⟨hcar, hout, hpile⟩,
    fun hm' => ?_, fun hm' => ?_⟩
  · rw [hheap, hout]
    exact .nil
  · unfold Impianto.tenute
    rw [hcar.vive, hpile]
    exact List.nil_subperm
  · rw [hcar.vive] at hz
    cases hz
  · rw [hm] at hm'
    cases hm'
  · rw [hm] at hm'
    cases hm'

end Custodita

theorem Raggiunge.custodita {ls : List Lavoro} (h : Raggiunge ls x) : Custodita x := by
  obtain ⟨x₀, hx₀, hrun⟩ := h
  exact hrun.invariant (fun _ _ _ hx hstep => hx.passo hstep) (.spenta hx₀)

/-! ## The memory of the kernel -/

/-- The heap calls of an entry come back unless the arena is used up. -/
theorem Custodita.chiama (hx : Custodita x) (hm : x.momento = .corsa) (hl : x.Lecita e) :
    serie (chiamate x.kernel e) (x.heap, x.out) = .error .memoria ∨
      ∃ k, serie (chiamate x.kernel e) (x.heap, x.out) = .ok k := by
  have hord := hx.ordinato
  have hnulla : ∀ k, serie [] k = .error .memoria ∨ ∃ k', serie [] k = .ok k' := fun k =>
    Or.inr ⟨k, rfl⟩
  have hn : blocco ≤ 512000 := by decide
  cases e with
  | chiamata c =>
    obtain ⟨hp, hint, hdisc⟩ := hl
    cases c with
    | activateP f k prec idx risu stk =>
      simp only [chiamate, chiamateStack]
      split
      · exact hnulla _
      · exact serie_ammessa hord hn fun _ _ hord => serie_ammessa hord hn fun _ _ hord =>
          serie_ammessa hord hn fun k _ _ => hnulla k
    | delay n z =>
      have hsize : sizeRichiesta ≤ 512000 := by decide
      exact serie_ammessa hord hsize fun k _ _ => hnulla k
    | malloc size p r =>
      have hsize : size.toNat ≤ 512000 := by
        have hmax := hdisc.2
        omega
      exact serie_ammessa hord hsize fun k _ _ => hnulla k
    | free v =>
      by_cases hv : v = 0
      · simp only [chiamate, if_pos hv]
        exact hnulla _
      · simp only [chiamate, if_neg hv]
        exact serie_ammessa hord (hdisc.resolve_left hv).1 fun k _ _ => hnulla k
    | _ => exact hnulla _
  | tick =>
    obtain ⟨a, hR, hA⟩ := hx.rappr hm
    obtain ⟨hnd, hvivi⟩ := scaduti_vivi hR hA.inv (x.kernel.vive.length + 1)
    exact (serie_delete hord hnd hvivi hx.tenute).1
  | _ => exact hnulla _

/-- Every machine that is reached is a kernel that is reached, over a heap whose calls were all in
order. The record of each sleeping process and the stacks of each activation lie in the arena
apart from each other, those of a live process are its own, and the heap calls of the next entry
come back unless the arena is used up. So it is while the idle process lives and the processes
ask for 0 to 512000 bytes, free only outstanding pointers that are neither stacks nor records, and
write only inside blocks of their own. -/
theorem memoria_separata (ls : List Lavoro) (x : Impianto) (h : Raggiunge ls x) :
    (x.momento = .corsa → ∃ es, Pitos.Raggiunge IdleVivo es x.kernel) ∧
    (∃ m cs, Run Heap.Passo (Heap.iniziale m, []) cs (x.heap, x.out)) ∧
    (x.tenute.Subperm x.out ∧ x.tenute.Pairwise Disgiunti ∧ ∀ v ∈ x.tenute, NellArena v) ∧
    (x.momento ≠ .inizio → Coperti x.kernel x.pile) ∧
    ∀ e, x.momento = .corsa → x.Lecita e →
      serie (chiamate x.kernel e) (x.heap, x.out) = .error .memoria ∨
        ∃ k, serie (chiamate x.kernel e) (x.heap, x.out) = .ok k := by
  have hx := h.custodita
  obtain ⟨hpair, harena⟩ := hx.ordinato.apart
  refine ⟨hx.corsa, hx.run, ⟨hx.tenute, ?_, fun v hv => harena v (hx.tenute.subset hv)⟩, hx.coperti,
    fun e hm hl => hx.chiama hm hl⟩
  obtain ⟨l, hperm, hsub⟩ := hx.tenute
  exact (hperm.pairwise_iff Disgiunti.symm).mp (hpair.sublist hsub)

/-- Two processes are activated, and the first allocates memory and sleeps. -/
theorem memoria_separata_corsa : ∃ x, Raggiunge [.init 0x5000 0x5004,
    .attiva 0x7000 0 10 3 0x5010 0x5014, .attiva 0x7100 0 12 3 0x5018 0x501c, .go,
    .entra (.chiamata (.malloc 30 0x6000 0)), .entra (.chiamata (.delay 100 0))] x ∧
      x.kernel.vive = [10041664] ∧ x.tenute.Pairwise Disgiunti := by
  obtain ⟨x, hx, hP⟩ := tenta_raggiunge [.init 0x5000 0x5004,
    .attiva 0x7000 0 10 3 0x5010 0x5014, .attiva 0x7100 0 12 3 0x5018 0x501c, .go,
    .entra (.chiamata (.malloc 30 0x6000 0)), .entra (.chiamata (.delay 100 0))]
    (fun x => x.kernel.vive = [10041664]) (by decide +kernel)
  exact ⟨x, hx, of_decide_eq_true hP, (memoria_separata _ x hx).2.2.1.2.1⟩

/-- The kernel never gives a stack back: with the three of each activation and the records of those
that sleep the arena is full after 36 activations at the latest. So it is while the idle process
lives and no process frees a stack, a record or what is not outstanding, asks for more than the
arena or writes outside its own blocks. -/
theorem attivazioni_finite (ls : List Lavoro) (x : Impianto) (h : Raggiunge ls x) :
    13848 * x.pile.length + 20 * x.kernel.vive.length ≤ 511992 ∧ x.pile.length ≤ 36 := by
  have hx := h.custodita
  have hsomma : (x.out.map fun v => v.2 + 8).sum ≤ 511992 := hx.ordinato.somma
  obtain ⟨l, hperm, hsub⟩ := hx.tenute
  have hle := (hsub.map fun v => v.2 + 8).sum_le_sum fun _ _ => Nat.zero_le _
  rw [(hperm.map fun v => v.2 + 8).sum_eq] at hle
  have hvive : ∀ V : List Addr, ((V.map record).map fun v => v.2 + 8).sum = 20 * V.length := by
    intro V
    induction V with
    | nil => rfl
    | cons z V ih =>
      rw [List.map_cons, List.map_cons, List.sum_cons, ih, List.length_cons, Nat.mul_succ,
        Nat.add_comm]
      rfl
  have hpile : ∀ l : Pile, ((l.flatMap blocchi).map fun v => v.2 + 8).sum = 13848 * l.length := by
    intro l
    induction l with
    | nil => rfl
    | cons stk l ih =>
      have hsize : ((blocchi stk).map fun v => v.2 + 8).sum = 13848 := by
        have hb : blocco = 4608 := rfl
        simp only [blocchi, List.map_cons, List.map_nil, List.sum_cons, List.sum_nil, hb]
        omega
      rw [List.flatMap_cons, List.map_append, List.sum_append, ih, hsize, List.length_cons]
      omega
  rw [tenute, List.map_append, List.sum_append, hvive, hpile] at hle
  omega

theorem attivazioni_finite_corsa : ∃ x, Raggiunge [.init 0x5000 0x5004,
    .attiva 0x7000 0 10 3 0x5010 0x5014, .attiva 0x7100 0 12 3 0x5018 0x501c, .go,
    .entra (.chiamata .terminateP)] x ∧ x.kernel.vivi.card = 2 ∧ x.pile.length = 3 ∧
      x.pile.length ≤ 36 := by
  obtain ⟨x, hx, hP⟩ := tenta_raggiunge [.init 0x5000 0x5004,
    .attiva 0x7000 0 10 3 0x5010 0x5014, .attiva 0x7100 0 12 3 0x5018 0x501c, .go,
    .entra (.chiamata .terminateP)]
    (fun x => x.kernel.vivi.card = 2 ∧ x.pile.length = 3) (by decide +kernel)
  obtain ⟨hcard, hlen⟩ := of_decide_eq_true hP
  exact ⟨x, hx, hcard, hlen, (attivazioni_finite _ x hx).2⟩

end Impianto

end Pitos
