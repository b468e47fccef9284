import Pitos.Lib.Memory

/-!
# Strings in memory

Bytes written one after the other, and the string that begins at an address: the bytes before the
first zero.
-/

namespace Lib

namespace Mem

variable {m : Mem} {a b : Word} {l l' : List (BitVec 8)} {c : BitVec 8} {i n : Nat}

def writeBytes (m : Mem) (a : Word) : List (BitVec 8) → Mem
  | [] => m
  | c :: l => writeBytes (m.write8 a c) (a + 1) l

/-- The addresses of the `n` bytes from `a` on. -/
def addresses (a : Word) (n : Nat) : List Word := (List.range n).map fun i => a + BitVec.ofNat 32 i

def bytes (m : Mem) (a : Word) (n : Nat) : List (BitVec 8) := (addresses a n).map m

structure IsString (m : Mem) (a : Word) (l : List (BitVec 8)) : Prop where
  text : ∀ i c, l[i]? = some c → m (a + BitVec.ofNat 32 i) = c
  nonzero : 0 ∉ l
  ends : m (a + BitVec.ofNat 32 l.length) = 0

/-! ## The addresses -/

@[simp] theorem length_addresses : (addresses a n).length = n := by simp [addresses]

theorem addresses_succ : addresses a (n + 1) = a :: addresses (a + 1) n := by
  have hshift : ∀ i, a + BitVec.ofNat 32 (i + 1) = a + 1 + BitVec.ofNat 32 i := by
    intro i
    bv_omega
  rw [addresses, List.range_succ_eq_map, List.map_cons, List.map_map]
  congr 1
  · simp
  · exact List.map_congr_left fun i _ => hshift i

theorem mem_addresses (hn : n ≤ 2 ^ 32) : b ∈ addresses a n ↔ Within a n b := by
  unfold Within
  rw [addresses, List.mem_map]
  constructor
  · rintro ⟨i, hi, rfl⟩
    have hlt := List.mem_range.mp hi
    bv_omega
  · intro h
    refine ⟨(b - a).toNat, List.mem_range.mpr h, ?_⟩
    bv_omega

@[simp] theorem length_bytes : (m.bytes a n).length = n := by simp [bytes]

theorem bytes_succ : m.bytes a (n + 1) = m a :: m.bytes (a + 1) n := by
  rw [bytes, addresses_succ]
  rfl

theorem bytes_add (k : Nat) :
    m.bytes a (k + n) = m.bytes a k ++ m.bytes (a + BitVec.ofNat 32 k) n := by
  induction k generalizing a with
  | zero => simp [bytes, addresses]
  | succ k ih =>
    have hshift : a + 1 + BitVec.ofNat 32 k = a + BitVec.ofNat 32 (k + 1) := by bv_omega
    rw [Nat.succ_add, bytes_succ, bytes_succ, ih, hshift]
    rfl

/-- Bytes that are not written. -/
theorem bytes_congr {m' : Mem} (h : ∀ b, Within a n b → m' b = m b) (hn : n ≤ 2 ^ 32) :
    m'.bytes a n = m.bytes a n :=
  List.map_congr_left fun b hb => h b ((mem_addresses hn).mp hb)

/-! ## Writing -/

theorem writeBytes_append : m.writeBytes a (l ++ l') =
    (m.writeBytes a l).writeBytes (a + BitVec.ofNat 32 l.length) l' := by
  induction l generalizing m a with
  | nil => simp [writeBytes]
  | cons c l ih =>
    have hshift : a + 1 + BitVec.ofNat 32 l.length = a + BitVec.ofNat 32 (c :: l).length := by
      rw [List.length_cons]
      bv_omega
    rw [List.cons_append, writeBytes, ih, hshift]
    rfl

theorem writeBytes_changes (hl : l.length ≤ 2 ^ 32) :
    ChangesAt (Within a l.length) m (m.writeBytes a l) := by
  induction l generalizing m a with
  | nil => exact ChangesAt.refl m
  | cons c l ih =>
    rw [List.length_cons] at hl ⊢
    have hfirst : Within a (l.length + 1) a := Within.self (Nat.succ_pos _)
    have h1 : (1 : Word).toNat = 1 := rfl
    have hhead : ChangesAt (Within a (l.length + 1)) m (m.write8 a c) :=
      (ChangesAt.refl m).write8 hfirst
    apply hhead.trans
    apply (ih (by omega)).mono
    intro b hb
    exact hb.of_offset (by omega)

theorem writeBytes_get (hl : l.length ≤ 2 ^ 32) (hc : l[i]? = some c) :
    m.writeBytes a l (a + BitVec.ofNat 32 i) = c := by
  induction l generalizing m a i with
  | nil => cases hc
  | cons d l ih =>
    rw [List.length_cons] at hl
    rw [writeBytes]
    cases i with
    | zero =>
      have hout : ¬ Within (a + 1) l.length a := by
        unfold Within
        bv_omega
      have ha : a + BitVec.ofNat 32 0 = a := by bv_omega
      obtain rfl : d = c := by simpa using hc
      rw [ha, writeBytes_changes (by omega) a hout]
      exact if_pos rfl
    | succ i =>
      have hshift : a + BitVec.ofNat 32 (i + 1) = a + 1 + BitVec.ofNat 32 i := by bv_omega
      rw [hshift]
      exact ih (by omega) (by simpa using hc)

/-! ## Strings -/

theorem IsString.unique (h : IsString m a l) (h' : IsString m a l') : l = l' := by
  have hle : ∀ {k k' : List (BitVec 8)}, IsString m a k → IsString m a k' →
      k'.length ≤ k.length := by
    intro k k' hk hk'
    by_contra hlt
    have hget := List.getElem?_eq_getElem (Nat.lt_of_not_le hlt)
    have hzero := (hk'.text _ _ hget).symm.trans hk.ends
    exact hk'.nonzero (hzero ▸ List.getElem_mem _)
  have hlen := Nat.le_antisymm (hle h' h) (hle h h')
  apply List.ext_getElem hlen
  intro i hi hi'
  have hget := h.text i _ (List.getElem?_eq_getElem hi)
  have hget' := h'.text i _ (List.getElem?_eq_getElem hi')
  exact hget.symm.trans hget'

/-- A prefix of a string. -/
theorem IsString.bytes_take (h : IsString m a l) (hn : n ≤ l.length) :
    m.bytes a n = l.take n := by
  apply List.ext_getElem
  · rw [length_bytes, List.length_take, Nat.min_eq_left hn]
  · intro i hi hi'
    rw [length_bytes] at hi
    have hget := h.text i _ (List.getElem?_eq_getElem (Nat.lt_of_lt_of_le hi hn))
    simpa [bytes, addresses] using hget

/-- A string with its zero. -/
theorem IsString.bytes_succ (h : IsString m a l) : m.bytes a (l.length + 1) = l ++ [0] := by
  rw [bytes_add, h.bytes_take (Nat.le_refl _), List.take_length, ← h.ends]
  simp [bytes, addresses]

/-- What is written up to the first zero. -/
theorem isString_writeBytes (hl : (l ++ 0 :: l').length ≤ 2 ^ 32) (hne : 0 ∉ l) :
    IsString (m.writeBytes a (l ++ 0 :: l')) a l := by
  refine ⟨?_, hne, ?_⟩
  · intro i c hc
    obtain ⟨hi, _⟩ := List.getElem?_eq_some_iff.mp hc
    apply writeBytes_get hl
    rw [List.getElem?_append_left hi]
    exact hc
  · apply writeBytes_get hl
    rw [List.getElem?_append_right (Nat.le_refl _), Nat.sub_self]
    rfl

end Mem

end Lib
