import Pitos.Properties.Heap
import Pitos.Properties.Stacks

/-!
# The kernel together with its heap

The kernel's model takes the addresses that `new` returns as arguments, and the heap's model knows
nothing of processes. A `Impianto` has both. `chiamate` are the calls of the heap that an entry
makes: `alloca_stack` takes a block of `4096 + 512` bytes for each of the three stacks of an
activation, `ki_delay` one for its request, `cdriver_t` deletes the requests that are due, and
`ki__malloc` and `ki_free` are for the processes. `collega` puts the addresses that came out into
the entry, which the kernel then makes.

Beside the heap the record `out` of its outstanding blocks is kept, and `pile`, the stacks handed
out so far.

Nothing keeps a process from spoiling the heap, so the runs are those in which none does. A process
asks for 0 to 512000 bytes, gives back only pointers that are outstanding and neither a stack nor
the record of a sleeping process (`Discreta`), and a block is written only by its owner: the record
of a sleeping process, which is in `ric` here, by the kernel alone. In all of these runs the idle
process stays alive (`Passo`).
-/

namespace Pitos

open Lib

structure Impianto where
  momento : Momento
  kernel : Kernel
  heap : Heap
  out : Heap.Registro
  pile : Pile

/-- The requests that the loop of `cdriver_t` takes off, in order. -/
def Kernel.scaduti : Nat → Kernel → List Addr
  | 0, _ => []
  | n + 1, s =>
    match s.desTimer with
    | none => []
    | some p =>
      if (s.ric p).dattesa = 0 then
        p :: Kernel.scaduti n { s with desTimer := (s.ric p).pric }
      else []

/-- `if (des_timer) des_timer->dattesa--;` -/
def Kernel.scala (s : Kernel) : Kernel :=
  match s.desTimer with
  | none => s
  | some p => s.aggiornaRic p fun q => { q with dattesa := int32 (q.dattesa - 1) }

namespace Impianto

/-- The size of the block that `alloca_stack` allocates for 4096 bytes. -/
abbrev blocco : Nat := 4096 + 512

/-- `sizeof(richiesta)` -/
abbrev sizeRichiesta : Nat := 12

/-- The loop that allocates the stacks, behind the test of `proc_count`. -/
def chiamateStack (s : Kernel) : List Heap.Chiamata :=
  if s.procCount = MAXPROCS then [] else [.vecNew blocco, .vecNew blocco, .vecNew blocco]

/-- The calls of the heap that an entry makes. -/
def chiamate (s : Kernel) : Evento → List Heap.Chiamata
  | .chiamata (.activateP ..) => chiamateStack s
  | .chiamata (.delay ..) => [.new sizeRichiesta]
  | .chiamata (.malloc size _ _) => [.malloc size.toNat]
  | .chiamata (.free p) => if p = 0 then [] else [.free p]
  | .tick => ((s.scala.scaduti (s.vive.length + 1)).map fun a => .delete (BitVec.ofNat 32 a))
  | _ => []

/-- The calls, one after the other. -/
def serie (cs : List Heap.Chiamata) (h : Heap × Heap.Registro) :
    Except Arresto (Heap × Heap.Registro) :=
  cs.foldlM Heap.esegui h

/-- A pointer that came out, the last one first. -/
def uscito (out : Heap.Registro) (i : Nat) : Word := (out.getD i (0, 0)).1

/-- `new char[size+512]+size`, three times. -/
def stack (out : Heap.Registro) : Fin 3 → Word := fun j => uscito out (2 - j) + 4096

/-- The entry with the addresses that the heap returned. -/
def collega (out : Heap.Registro) : Evento → Evento
  | .chiamata (.activateP f h prec idx risu _) =>
    .chiamata (.activateP f h prec idx risu (stack out))
  | .chiamata (.delay n _) => .chiamata (.delay n (uscito out 0).toNat)
  | .chiamata (.malloc size p _) => .chiamata (.malloc size p (uscito out 0))
  | e => e

/-- `p` is not the block of a stack. -/
def FuoriPile (pile : Pile) (p : Word) : Prop := ∀ stk ∈ pile, ∀ j, p ≠ stk j - 4096

/-- What the processes may do with the heap: ask for what the arena may have, give back what they
got. The kernel checks neither. -/
def Discreta (x : Impianto) : Chiamata → Prop
  | .malloc size _ _ => 0 ≤ size ∧ size ≤ 512000
  | .free p => p = 0 ∨ p ∈ x.out.map Prod.fst ∧ p.toNat ∉ x.kernel.vive ∧ FuoriPile x.pile p
  | _ => True

/-- The entries the machine can make, whatever the heap returns. -/
def Lecita (x : Impianto) : Evento → Prop
  | .chiamata c => (∃ p, x.kernel.esecuzione = some p ∧ p ≠ idle) ∧ Interi c ∧ x.Discreta c
  | e => Possibile x.kernel e

inductive Lavoro
  | init (dummy risu : Word)
  | attiva (f h : Word) (prec level : Int) (idx risu : Word)
  | semIni (valore : Int) (idx risu : Word)
  | go
  | entra (e : Evento)
  /-- A byte written by the owner of a block. -/
  | scrive (a : Word) (v : BitVec 8)

/-- The stacks handed out after an entry. -/
def pileDopo (s : Kernel) (out : Heap.Registro) (pile : Pile) : Evento → Pile
  | .chiamata (.activateP ..) => alloca s (stack out) pile
  | _ => pile

/-- The start of the machine, with the stacks from the heap. -/
def accende (x : Impianto) (m : Momento) (cs : List Heap.Chiamata)
    (f : (Fin 3 → Word) → Kernel → Esito Kernel) : Option Impianto :=
  match serie cs (x.heap, x.out) with
  | .error _ => none
  | .ok (heap, out) =>
    match f (stack out) x.kernel with
    | .error _ => none
    | .ok s => some ⟨m, s, heap, out, if cs.isEmpty then x.pile else stack out :: x.pile⟩

/-- An entry that comes back, with the heap calls it makes. -/
def entra (x : Impianto) (e : Evento) : Option Impianto :=
  match serie (chiamate x.kernel e) (x.heap, x.out) with
  | .error _ => none
  | .ok (heap, out) =>
    match passo x.kernel (collega out e) with
    | .error _ => none
    | .ok s => some ⟨.corsa, s, heap, out, pileDopo x.kernel out x.pile e⟩

/-- One step. The order is that of the start: `kernel_init`, the calls of `cmain`, `kernel_go`, and
from then on entries. -/
def lavora (x : Impianto) : Lavoro → Option Impianto
  | .init dummy risu =>
    if x.momento = .inizio then
      x.accende .avvio [.vecNew blocco, .vecNew blocco, .vecNew blocco] (kernelInit dummy risu)
    else none
  | .attiva f h prec level idx risu =>
    if x.momento = .avvio then
      x.accende .avvio (chiamateStack x.kernel) fun stk s =>
        avvia s (.attiva f h prec level idx risu stk)
    else none
  | .semIni valore idx risu =>
    if x.momento = .avvio then x.accende .avvio [] fun _ s => avvia s (.semIni valore idx risu)
    else none
  | .go => if x.momento = .avvio then x.accende .corsa [] fun _ s => kernelGo s else none
  | .entra e => if x.momento = .corsa then x.entra e else none
  | .scrive a v =>
    some { x with heap := { x.heap with mem := x.heap.mem.write8 a v } }

/-- What the steps are allowed to do: entries with calls as in `Discreta`, and bytes written inside
outstanding blocks by their owners. -/
def Ammesso (x : Impianto) : Lavoro → Prop
  | .entra e => x.Lecita e
  | .scrive a v => Heap.Ammessa x.out (.scrive a v)
  | _ => True

/-- A step that leaves the idle process alive. -/
def Passo (x : Impianto) (l : Lavoro) (y : Impianto) : Prop :=
  x.Ammesso l ∧ x.lavora l = some y ∧ (y.momento ≠ .inizio → y.kernel.Vivo idle)

/-- The machine with the image loaded. -/
def Spenta (x : Impianto) : Prop :=
  x.momento = .inizio ∧ Caricato x.kernel ∧ (∃ m, x.heap = Heap.iniziale m) ∧ x.out = [] ∧
    x.pile = []

/-- What steps lead to that are allowed and leave the idle process alive. -/
def Raggiunge (ls : List Lavoro) (x : Impianto) : Prop := ∃ x₀, Spenta x₀ ∧ Run Passo x₀ ls x

/-! ## Evaluation -/

instance (pile : Pile) (p : Word) : Decidable (FuoriPile pile p) :=
  List.decidableBAll (fun stk : Fin 3 → Word => ∀ j, p ≠ stk j - 4096) pile

instance (x : Impianto) : (c : Chiamata) → Decidable (x.Discreta c)
  | .malloc size _ _ => inferInstanceAs (Decidable (0 ≤ size ∧ size ≤ 512000))
  | .free p => inferInstanceAs (Decidable (p = 0 ∨ p ∈ x.out.map Prod.fst ∧
      p.toNat ∉ x.kernel.vive ∧ FuoriPile x.pile p))
  | .activateP .. | .terminateP | .semIni .. | .semWait .. | .semSignal .. | .sysGetOsName ..
  | .getTick .. | .delay .. | .getPri .. | .getBasepri .. | .getPid .. | .signal .. | .raise ..
  | .signalrespin | .print .. => isTrue trivial

instance (x : Impianto) : (e : Evento) → Decidable (x.Lecita e)
  | .chiamata c => inferInstanceAs (Decidable
      ((∃ p, x.kernel.esecuzione = some p ∧ p ≠ idle) ∧ Interi c ∧ x.Discreta c))
  | .chiamataErrata => inferInstanceAs (Decidable (Possibile x.kernel .chiamataErrata))
  | .tick => inferInstanceAs (Decidable (Possibile x.kernel .tick))
  | .tasto code => inferInstanceAs (Decidable (Possibile x.kernel (.tasto code)))
  | .eccezione => inferInstanceAs (Decidable (Possibile x.kernel .eccezione))
  | .ritorno => inferInstanceAs (Decidable (Possibile x.kernel .ritorno))

instance (x : Impianto) (l : Lavoro) : Decidable (x.Ammesso l) := by
  cases l <;> unfold Ammesso <;> infer_instance

/-- A step, executed. -/
def tenta (x : Impianto) (l : Lavoro) : Option Impianto :=
  if x.Ammesso l then
    match x.lavora l with
    | none => none
    | some y => if y.momento ≠ .inizio → y.kernel.Vivo idle then some y else none
  else none

theorem tenta_passo {x y : Impianto} {l : Lavoro} (h : x.tenta l = some y) : x.Passo l y := by
  unfold tenta at h
  split at h
  · rename_i hamm
    split at h
    · cases h
    · rename_i z hz
      split at h
      · rename_i hv
        obtain rfl := Option.some.inj h
        exact ⟨hamm, hz, hv⟩
      · cases h
  · cases h

/-- The machine whose memory is zero. -/
def spenta : Impianto := ⟨.inizio, caricato, Heap.iniziale fun _ => 0, [], []⟩

theorem spenta_spenta : Spenta spenta := ⟨rfl, caricato_caricato, ⟨_, rfl⟩, rfl, rfl⟩

/-- What holds at the end of an evaluated run holds of a machine that is reached. -/
theorem tenta_raggiunge (ls : List Lavoro) (P : Impianto → Bool)
    (h : (exec tenta spenta ls).any P = true) : ∃ x, Raggiunge ls x ∧ P x = true := by
  obtain ⟨x, hx, hP⟩ := Option.any_eq_true _ _ |>.mp h
  exact ⟨x, ⟨spenta, spenta_spenta, (exec_run hx).mono fun _ _ _ => tenta_passo⟩, hP⟩

end Impianto

end Pitos
