import Mathlib.Logic.Function.Basic
import Pitos.Lib.Linked
import Pitos.Lib.Memory

/-!
# The kernel's heap

`malloc.c` over `sbrk` of `memory.cpp`. A block is a header word with its size, the memory
handed out and a trailer word with the size again; the low bit of the two says that the block
is in use. The memory of a free block holds the link of its list and the number of the list,
-1 when it is still to be computed. The static variables are fields of `Heap`, `expected_sbrk`
with them; the blocks are words of its memory. Sizes are unsigned where the source compares
them with a `size_t`.

`sbrk` does not return when the arena is used up (`Arresto.memoria`). The walks along a list
get more turns than a list without a cycle can take: `Arresto.giro` is a walk that does not end.
-/

namespace Pitos

open Lib

structure Heap where
  mem : Mem
  slop : Word
  freelist : Nat → Word
  expectedSbrk : Word
  baseAddress : Word
  allocated : Word

/-- What keeps a call from returning. -/
inductive Arresto
  | memoria | giro
  deriving DecidableEq, Repr

namespace Heap

def ALIGN : Word := 8
def MIN_SAVE_EXTRA : Word := 64

/-- `length` of `memory.cpp`. -/
def lunghezza : Word := 512000

/-- The heap of a loaded image. -/
def iniziale (m : Mem) : Heap :=
  { mem := m, slop := 0, freelist := fun _ => 0, expectedSbrk := 0, baseAddress := 10000000,
    allocated := 0 }

/-! ## The words of a block -/

section

variable (s : Heap) (bp : Word)

def size : Word := s.mem.read32 bp
def next : Word := s.mem.read32 (bp + 4)
def bucket : Word := s.mem.read32 (bp + 8)
def befsz : Word := s.mem.read32 (bp - 4)
def endsz : Word := s.mem.read32 (bp + s.size bp + 4)
def before : Word := bp - s.befsz bp - 8
def after : Word := bp + s.size bp + 8
def data : Word := bp + 4

def setSize (v : Word) : Heap := { s with mem := s.mem.write32 bp v }
def setNext (v : Word) : Heap := { s with mem := s.mem.write32 (bp + 4) v }
def setBucket (v : Word) : Heap := { s with mem := s.mem.write32 (bp + 8) v }

/-- `ENDSZ(bp) = v`: where the trailer is depends on the size in the header. -/
def setEndsz (v : Word) : Heap := { s with mem := s.mem.write32 (bp + s.size bp + 4) v }

end

/-! ## The lists of free blocks -/

/-- `while (size) { rv++; size >>= 1; }`: a word is shifted out after 32 turns. -/
def contaBit : Nat → Word → Nat → Nat
  | 0, _, rv => rv
  | n + 1, size, rv => if size = 0 then rv else contaBit n (size >>> 1) (rv + 1)

def size2bucket (size : Word) : Nat := contaBit 32 (size >>> 2) 0

def b2bucket (s : Heap) (b : Word) : Nat × Heap :=
  let s := if s.bucket b = -1 then s.setBucket b (BitVec.ofNat 32 (size2bucket (s.size b))) else s
  ((s.bucket b).toNat, s)

/-- A link that is not null. -/
def puntato (p : Word) : Option Word := if p = 0 then none else some p

def successore (s : Heap) (bp : Word) : Option Word := puntato (s.next bp)

/-- `for (rv = freelist[b]; rv; prev = &(rv->next), rv = rv->next)` up to the block that passes
the test: the block whose link `prev` is, none for the head, and the block found. -/
def cerca (s : Heap) (b : Nat) (va : Word → Bool) : Except Arresto (Option Word × Option Word) :=
  match walk (stopAt va) s.successore 512000 () none (puntato (s.freelist b)) with
  | none => .error .giro
  | some (_, prev, rv) => .ok (prev, rv)

/-- `*prev = v` -/
def scrivePrev (s : Heap) (b : Nat) (prev : Option Word) (v : Word) : Heap :=
  match prev with
  | none => { s with freelist := Function.update s.freelist b v }
  | some q => s.setNext q v

/-- `bp->next = freelist[b]; freelist[b] = bp;` for the list the block belongs to. -/
def elenca (s : Heap) (bp : Word) : Heap :=
  let (b, s) := s.b2bucket bp
  let s := s.setNext bp (s.freelist b)
  { s with freelist := Function.update s.freelist b bp }

def splitBlock (s : Heap) (b size : Word) : Word × Heap :=
  let rv := b + size + 8
  let s := s.setSize rv (s.size b - size - 8)
  let s := s.setBucket rv (-1)
  let s := s.setSize b size
  let s := s.setEndsz b (s.size b)
  let s := s.setEndsz rv (s.size rv)
  (rv, s)

/-- `RET(rv)` -/
def ret (s : Heap) (rv : Word) : Word × Heap :=
  let s := s.setEndsz rv (s.endsz rv ||| 1)
  let s := s.setSize rv (s.size rv ||| 1)
  (data rv, s)

/-! ## `ki_malloc` -/

def sbrk (s : Heap) (size : Word) : Except Arresto (Word × Heap) :=
  if s.allocated + size > lunghezza then .error .memoria
  else .ok (s.baseAddress,
    { s with baseAddress := s.baseAddress + size, allocated := s.allocated + size })

/-- `size => k*ALIGN`: the comparison is of two `int`. -/
def arrotonda (size : Word) : Word :=
  let size := if size.slt ALIGN then ALIGN else size
  (size + (ALIGN - 1)) &&& ~~~(ALIGN - 1)

/-- `rv->size = chunk_size - 8; ENDSZ(rv) = rv->size; AFTER(rv)->size = 1;` -/
def delimita (s : Heap) (rv size : Word) : Heap :=
  let s := s.setSize rv size
  let s := s.setEndsz rv (s.size rv)
  s.setSize (s.after rv) 1

/-- What is made of the memory got from `sbrk`: a disconnected piece starts with a marker, a
contiguous one absorbs the old end marker. -/
def aggiunge (s : Heap) (rv chunkSize : Word) : Word × Heap :=
  if rv = s.expectedSbrk then
    ({ s with expectedSbrk := rv + chunkSize }.delimita (rv - 4) (chunkSize - 8)).ret (rv - 4)
  else
    (({ s with expectedSbrk := rv + chunkSize }.setSize rv 1).delimita (rv + 4)
      (chunkSize - 8 - 8)).ret (rv + 4)

/-- `required more and more memory` -/
def chiedeMemoria (s : Heap) (size : Word) : Except Arresto (Word × Heap) := do
  let chunkSize := size + 16
  let (rv, s) ← s.sbrk chunkSize
  if rv = -1 then return (0, s) else return s.aggiunge rv chunkSize

/-- `slop = split_block(rv, size)` when there is enough to save, the old slop put on its free list
first. -/
def conserva (s : Heap) (rv size : Word) : Heap :=
  if size + MIN_SAVE_EXTRA ≤ s.size rv then
    let s := if s.slop ≠ 0 then s.elenca s.slop else s
    let (slop, s) := s.splitBlock rv size
    { s with slop := slop }
  else s

/-- `while (b < 30)`: the turns left and the list looked at. -/
def secchi (s : Heap) (size : Word) : Nat → Nat → Except Arresto (Word × Heap)
  | 0, _ => s.chiedeMemoria size
  | n + 1, b => do
    match ← s.cerca b fun rv => size ≤ s.size rv with
    | (prev, some rv) =>
      let s := s.scrivePrev b prev (s.next rv)
      return (s.conserva rv size).ret rv
    | (_, none) => secchi s size n (b + 1)

def kiMalloc (s : Heap) (size : Word) : Except Arresto (Word × Heap) := do
  let size := arrotonda size
  if s.slop ≠ 0 ∧ size ≤ s.size s.slop then
    let rv := s.slop
    let s := if size + MIN_SAVE_EXTRA ≤ s.size s.slop then
        let (slop, s) := s.splitBlock s.slop size
        { s with slop := slop }
      else { s with slop := 0 }
    return s.ret rv
  else
    let b := size2bucket size
    match ← s.cerca b fun rv => size ≤ s.size rv ∧ s.size rv < size + size.sdiv 4 with
    | (prev, some rv) => return (s.scrivePrev b prev (s.next rv)).ret rv
    | (_, none) => s.secchi size (30 - b) b

/-! ## `ki_free` and `ki_realloc` -/

/-- `a->size += b->size + 8; a->bucket = -1; ENDSZ(a) = a->size;` -/
def unisci (s : Heap) (a b : Word) : Heap :=
  let s := s.setSize a (s.size a + (s.size b + 8))
  let s := s.setBucket a (-1)
  s.setEndsz a (s.size a)

/-- `if (c == slop) slop = 0;` and the walk along `freelist[b2bucket(c)]` that takes `c` out. -/
def stacca (s : Heap) (c : Word) : Except Arresto Heap := do
  let s := if c = s.slop then { s with slop := 0 } else s
  let (bu, s) := s.b2bucket c
  match ← s.cerca bu fun bp => bp = c with
  | (prev, some bp) => return s.scrivePrev bu prev (s.next bp)
  | (_, none) => return s

def merge (s : Heap) (a b c : Word) : Except Arresto (Word × Heap) := do
  let s ← s.stacca c
  return (a, s.unisci a b)

/-- `block->size &= ~1; ENDSZ(block) &= ~1; block->bucket = -1;` -/
def smarca (s : Heap) (block : Word) : Heap :=
  let s := s.setSize block (s.size block &&& ~~~1)
  let s := s.setEndsz block (s.endsz block &&& ~~~1)
  s.setBucket block (-1)

/-- `if (! (BEFSZ(block) & 1)) block = merge(BEFORE(block), block, BEFORE(block));` -/
def unisciPrima (s : Heap) (block : Word) : Except Arresto (Word × Heap) :=
  if s.befsz block &&& 1 = 0 then s.merge (s.before block) block (s.before block)
  else .ok (block, s)

/-- `if (! (AFTER(block)->size & 1)) block = merge(block, AFTER(block), AFTER(block));` -/
def unisciDopo (s : Heap) (block : Word) : Except Arresto (Word × Heap) :=
  if s.size (s.after block) &&& 1 = 0 then s.merge block (s.after block) (s.after block)
  else .ok (block, s)

def kiFree (s : Heap) (ptr : Word) : Except Arresto Heap := do
  if ptr = 0 then return s
  let block := ptr - 4
  let s := s.smarca block
  let (block, s) ← s.unisciPrima block
  let (block, s) ← s.unisciDopo block
  return s.elenca block

/-- `__memcpy`: `rep movsl` and then what is left, a half word and a byte. -/
def memcpy (s : Heap) (dst src n : Word) : Heap :=
  let k := n.toNat / 4
  let m := s.mem.copyRep dst src 4 k
  let dst := dst + BitVec.ofNat 32 (4 * k)
  let src := src + BitVec.ofNat 32 (4 * k)
  let (m, dst, src) := if n &&& 2 ≠ 0 then (m.copy dst src 2, dst + 2, src + 2) else (m, dst, src)
  let m := if n &&& 1 ≠ 0 then m.copy dst src 1 else m
  { s with mem := m }

def kiRealloc (s : Heap) (ptr size : Word) : Except Arresto (Word × Heap) := do
  if ptr = 0 then s.kiMalloc size
  else
    let b := ptr - 4
    let copysize := s.size b &&& ~~~1
    if size ≤ copysize then return (ptr, s)
    let (newptr, s) ← s.kiMalloc size
    if newptr = 0 then return (0, s)
    let s := s.memcpy newptr ptr copysize
    let s ← s.kiFree ptr
    return (newptr, s)

/-! ## The operators of C++ -/

def builtinNew (s : Heap) (n : Word) : Except Arresto (Word × Heap) := s.kiMalloc n

def builtinVecNew (s : Heap) (n : Word) : Except Arresto (Word × Heap) := s.kiMalloc n

def builtinDelete (s : Heap) (p : Word) : Except Arresto Heap := s.kiFree p

def builtinVecDelete (s : Heap) (p : Word) : Except Arresto Heap := s.kiFree p

end Heap

end Pitos
