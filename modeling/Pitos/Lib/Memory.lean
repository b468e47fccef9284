import Mathlib.Algebra.Ring.Nat

/-!
# Byte memory with 32-bit words

A flat memory of bytes addressed by 32-bit numbers, read and written as little-endian words
at any address. Addresses wrap around, so whether two words share a byte is a statement about
the distance of their addresses in both directions (`Apart`).

What a sequence of writes leaves alone is said with the set of the bytes it may change
(`ChangesAt`): the sets of two steps in a row are united, and a word outside the set reads the
same before and after.
-/

namespace Lib

abbrev Word := BitVec 32

/-- One byte at each address. -/
abbrev Mem := Word → BitVec 8

namespace Mem

def read32 (m : Mem) (a : Word) : Word := m (a + 3) ++ m (a + 2) ++ m (a + 1) ++ m a

def write32 (m : Mem) (a v : Word) : Mem :=
  fun b => if (b - a).toNat < 4 then v.extractLsb' (8 * (b - a).toNat) 8 else m b

def write8 (m : Mem) (a : Word) (v : BitVec 8) : Mem := fun b => if b = a then v else m b

/-- The words at the two addresses have no byte in common. -/
def Apart (a b : Word) : Prop := 4 ≤ (b - a).toNat ∧ 4 ≤ (a - b).toNat

variable {m m' : Mem} {a b v w : Word}

theorem Apart.symm (h : Apart a b) : Apart b a := ⟨h.2, h.1⟩

/-- Words at two offsets from one address. -/
theorem Apart.offset {k l : Word} (h : Apart k l) : Apart (a + k) (a + l) := by
  have h1 : a + l - (a + k) = l - k := by bv_omega
  have h2 : a + k - (a + l) = k - l := by bv_omega
  unfold Apart at *
  rwa [h1, h2]

/-- A word and one at an offset from it. -/
theorem Apart.base {k : Word} (h : Apart 0 k) : Apart a (a + k) := by
  simpa using h.offset (a := a)

instance (a b : Word) : Decidable (Apart a b) := inferInstanceAs (Decidable (_ ∧ _))

/-- A write leaves every byte outside its word alone. -/
theorem write32_far (h : 4 ≤ (b - a).toNat) : m.write32 a v b = m b := by
  have hn : ¬ (b - a).toNat < 4 := by omega
  rw [write32, if_neg hn]

@[simp] theorem read32_write32 (m : Mem) (a v : Word) : (m.write32 a v).read32 a = v := by
  have h0 : (a - a).toNat = 0 := by simp
  have h1 : (a + 1 - a).toNat = 1 := by bv_omega
  have h2 : (a + 2 - a).toNat = 2 := by bv_omega
  have h3 : (a + 3 - a).toNat = 3 := by bv_omega
  simp only [read32, write32, h0, h1, h2, h3]
  simp only [Nat.reduceLT, if_true, Nat.reduceMul]
  apply BitVec.eq_of_getLsbD_eq
  intro i hi
  simp only [BitVec.getLsbD_append, BitVec.getLsbD_extractLsb']
  by_cases h8 : i < 8
  · simp [h8]
  · by_cases h16 : i - 8 < 8
    · have : 8 + (i - 8) = i := by omega
      simp [h8, h16, this]
    · by_cases h24 : i - 8 - 8 < 8
      · have : 16 + (i - 8 - 8) = i := by omega
        simp [h8, h16, h24, this]
      · have h32 : i - 8 - 8 - 8 < 8 := by omega
        have : 24 + (i - 8 - 8 - 8) = i := by omega
        simp [h8, h16, h24, h32, this]

/-- A word depends on its four bytes only. -/
theorem read32_congr (h0 : m' a = m a) (h1 : m' (a + 1) = m (a + 1)) (h2 : m' (a + 2) = m (a + 2))
    (h3 : m' (a + 3) = m (a + 3)) : m'.read32 a = m.read32 a := by
  simp only [read32, h0, h1, h2, h3]

/-- A word is known by its bytes. -/
theorem read32_eq (h : ∀ k, k < 4 → m (a + BitVec.ofNat 32 k) = w.extractLsb' (8 * k) 8) :
    m.read32 a = w := by
  have hw : ∀ k, k < 4 → m.write32 a w (a + BitVec.ofNat 32 k) = w.extractLsb' (8 * k) 8 := by
    intro k hk
    have hsub : (a + BitVec.ofNat 32 k - a).toNat = k := by bv_omega
    rw [write32, hsub, if_pos hk]
  have hbyte : ∀ k, k < 4 → m (a + BitVec.ofNat 32 k) = m.write32 a w (a + BitVec.ofNat 32 k) :=
    fun k hk => (h k hk).trans (hw k hk).symm
  rw [← read32_write32 m a w]
  refine read32_congr ?_ (hbyte 1 (by omega)) (hbyte 2 (by omega)) (hbyte 3 (by omega))
  simpa using hbyte 0 (by omega)

theorem read32_write32_apart (h : Apart a b) : (m.write32 a v).read32 b = m.read32 b := by
  obtain ⟨h1, h2⟩ := h
  refine read32_congr (write32_far h1) (write32_far ?_) (write32_far ?_) (write32_far ?_) <;>
    bv_omega

/-! ## What writes leave alone -/

/-- One of the `n` bytes from `a` on. -/
def Within (a : Word) (n : Nat) (b : Word) : Prop := (b - a).toNat < n

instance (a : Word) (n : Nat) (b : Word) : Decidable (Within a n b) :=
  inferInstanceAs (Decidable (_ < _))

theorem Within.self {n : Nat} (hn : 0 < n) : Within a n a := by
  unfold Within
  rw [BitVec.sub_self]
  exact hn

theorem Within.mono {n k : Nat} (h : Within a n b) (hk : n ≤ k) : Within a k b :=
  Nat.lt_of_lt_of_le h hk

/-- A piece at an offset is inside the whole. -/
theorem Within.of_offset {k c : Word} {n l : Nat} (h : Within (a + k) n c) (hl : k.toNat + n ≤ l) :
    Within a l c := by
  have hsum : c - a = c - (a + k) + k := by bv_omega
  unfold Within at *
  rw [hsum, BitVec.toNat_add]
  exact Nat.lt_of_le_of_lt (Nat.mod_le _ _) (by omega)

/-- Two pieces at different offsets have no byte in common. -/
theorem Within.not_offset {k c : Word} {n l : Nat} (h : Within a n c) (hn : n ≤ k.toNat)
    (hl : k.toNat + l ≤ 2 ^ 32) : ¬ Within (a + k) l c := by
  unfold Within at *
  have hsub : (c - (a + k)).toNat = (2 ^ 32 - k.toNat + (c - a).toNat) % 2 ^ 32 := by
    rw [← BitVec.toNat_sub]
    congr 1
    bv_omega
  rw [hsub, Nat.mod_eq_of_lt (by omega)]
  omega

/-- The memories differ on the given set of bytes only. -/
def ChangesAt (P : Word → Prop) (m m' : Mem) : Prop := ∀ b, ¬ P b → m' b = m b

namespace ChangesAt

variable {P Q : Word → Prop} {m'' : Mem}

theorem refl (m : Mem) : ChangesAt P m m := fun _ _ => rfl

theorem mono (h : ChangesAt P m m') (hPQ : ∀ b, P b → Q b) : ChangesAt Q m m' :=
  fun b hb => h b fun hP => hb (hPQ b hP)

theorem trans (h : ChangesAt P m m') (h' : ChangesAt P m' m'') : ChangesAt P m m'' :=
  fun b hb => (h' b hb).trans (h b hb)

theorem write32 (h : ChangesAt P m m') (hP : ∀ b, Within a 4 b → P b) :
    ChangesAt P m (m'.write32 a v) := by
  intro b hb
  rw [write32_far (Nat.le_of_not_lt fun hlt => hb (hP b hlt))]
  exact h b hb

theorem write8 {x : BitVec 8} (h : ChangesAt P m m') (hP : P a) :
    ChangesAt P m (m'.write8 a x) := by
  intro b hb
  have hne : b ≠ a := fun e => hb (e ▸ hP)
  rw [Mem.write8, if_neg hne]
  exact h b hb

/-- A word outside the set is the same. -/
theorem read32 (h : ChangesAt P m m') (hP : ∀ b, Within a 4 b → ¬ P b) :
    m'.read32 a = m.read32 a := by
  have hbyte : ∀ k : Word, k.toNat < 4 → m' (a + k) = m (a + k) := fun k hk =>
    h _ (hP _ (by
      have hsub : a + k - a = k := by bv_omega
      unfold Within
      rwa [hsub]))
  have h0 : m' a = m a := by simpa using hbyte 0 (by decide)
  exact read32_congr h0 (hbyte 1 (by decide)) (hbyte 2 (by decide)) (hbyte 3 (by decide))

end ChangesAt

/-- A word on whose bytes two memories agree. -/
theorem read32_within (h : ∀ b, Within a 4 b → m' b = m b) : m'.read32 a = m.read32 a := by
  have hch : ChangesAt (fun b => ¬ Within a 4 b) m m' := fun b hb => h b (not_not.mp hb)
  exact hch.read32 fun b hb hb' => hb' hb

/-! ## Addresses as numbers -/

/-- The bytes with numbers from `x` up to `y`. -/
def Between (x y : Nat) (b : Word) : Prop := x ≤ b.toNat ∧ b.toNat < y

section Numbers

variable {x y k n : Nat}

theorem within_ofNat (hk : k + n ≤ 2 ^ 32) :
    Within (BitVec.ofNat 32 k) n b ↔ Between k (k + n) b := by
  unfold Within Between
  by_cases hn : n = 0
  · omega
  · bv_omega

theorem ChangesAt.read32_number (h : ChangesAt (Between x y) m m') (hout : k + 4 ≤ x ∨ y ≤ k)
    (hk : k + 4 ≤ 2 ^ 32) : m'.read32 (BitVec.ofNat 32 k) = m.read32 (BitVec.ofNat 32 k) := by
  apply h.read32
  intro b hb hb'
  obtain ⟨h1, h2⟩ := (within_ofNat hk).mp hb
  obtain ⟨h3, h4⟩ := hb'
  omega

theorem ChangesAt.byte_number (h : ChangesAt (Between x y) m m') (hout : k < x ∨ y ≤ k)
    (hk : k < 2 ^ 32) : m' (BitVec.ofNat 32 k) = m (BitVec.ofNat 32 k) := by
  apply h _
  intro hb
  obtain ⟨h1, h2⟩ := hb
  rw [BitVec.toNat_ofNat, Nat.mod_eq_of_lt hk] at h1 h2
  omega

theorem ChangesAt.write32_number (h : ChangesAt (Between x y) m m') (hx : x ≤ k) (hy : k + 4 ≤ y)
    (hk : k + 4 ≤ 2 ^ 32) : ChangesAt (Between x y) m (m'.write32 (BitVec.ofNat 32 k) v) := by
  apply h.write32
  intro b hb
  obtain ⟨h1, h2⟩ := (within_ofNat hk).mp hb
  exact ⟨by omega, by omega⟩

/-- Words at two numbers at least four apart. -/
theorem read32_write32_number (hxy : x + 4 ≤ y ∨ y + 4 ≤ x) (hx : x + 4 ≤ 2 ^ 32)
    (hy : y + 4 ≤ 2 ^ 32) :
    (m.write32 (BitVec.ofNat 32 x) v).read32 (BitVec.ofNat 32 y) = m.read32 (BitVec.ofNat 32 y) :=
  ((ChangesAt.refl m).write32_number (Nat.le_refl x) (Nat.le_refl _) hx).read32_number hxy.symm hy

end Numbers

/-! ## The low bits of a number -/

section LowBits

variable {n k : Nat}

theorem clear_low (w : Word) (k : Nat) :
    w &&& ~~~BitVec.ofNat 32 (2 ^ k - 1) = (w >>> k) <<< k := by
  apply BitVec.eq_of_getLsbD_eq
  intro i hi
  simp only [BitVec.getLsbD_and, BitVec.getLsbD_not, BitVec.getLsbD_shiftLeft,
    BitVec.getLsbD_ushiftRight, BitVec.getLsbD_ofNat, Nat.testBit_two_pow_sub_one, hi,
    decide_true, Bool.true_and]
  by_cases hik : i < k
  · simp [hik]
  · have hsum : k + (i - k) = i := by omega
    simp [hik, hsum]

theorem clear_low_ofNat (k : Nat) (hn : n < 2 ^ 32) :
    BitVec.ofNat 32 n &&& ~~~BitVec.ofNat 32 (2 ^ k - 1) = BitVec.ofNat 32 (n / 2 ^ k * 2 ^ k) := by
  rw [clear_low]
  apply BitVec.eq_of_toNat_eq
  rw [BitVec.toNat_shiftLeft, BitVec.toNat_ushiftRight, BitVec.toNat_ofNat, BitVec.toNat_ofNat,
    Nat.mod_eq_of_lt hn, Nat.shiftRight_eq_div_pow, Nat.shiftLeft_eq]

theorem and_one_ofNat (n : Nat) : BitVec.ofNat 32 n &&& 1 = BitVec.ofNat 32 (n % 2) := by
  apply BitVec.eq_of_toNat_eq
  simp only [BitVec.toNat_and, BitVec.toNat_ofNat, BitVec.reduceToNat, Nat.and_one_is_mod]
  omega

theorem or_one_ofNat (hn : n % 2 = 0) : BitVec.ofNat 32 n ||| 1 = BitVec.ofNat 32 (n + 1) := by
  have hand : BitVec.ofNat 32 n &&& 1 = 0 := by rw [and_one_ofNat, hn]; rfl
  rw [← BitVec.add_eq_or_of_and_eq_zero _ _ hand, BitVec.ofNat_add]
  rfl

end LowBits

/-! ## Copies -/

/-- `n` bytes read from `src` on and then written from `dst` on. -/
def copy (m : Mem) (dst src : Word) (n : Nat) : Mem :=
  fun b => if (b - dst).toNat < n then m (src + (b - dst)) else m b

/-- `k` copies of `n` bytes each, the two addresses advancing. -/
def copyRep (m : Mem) (dst src : Word) (n : Nat) : Nat → Mem
  | 0 => m
  | k + 1 => copyRep (m.copy dst src n) (dst + BitVec.ofNat 32 n) (src + BitVec.ofNat 32 n) n k

section Copies

variable {dst src : Word} {n k : Nat}

theorem copy_changes (m : Mem) : ChangesAt (Within dst n) m (m.copy dst src n) := by
  intro b hb
  unfold Within at hb
  rw [copy, if_neg hb]

/-- Two copies in a row are one, when the first does not write where the second reads. -/
theorem copy_copy (hfar : ∀ b, Within dst k b → ¬ Within (src + BitVec.ofNat 32 k) n b) :
    (m.copy dst src k).copy (dst + BitVec.ofNat 32 k) (src + BitVec.ofNat 32 k) n =
      m.copy dst src (k + n) := by
  funext b
  have hstep : b - dst = b - (dst + BitVec.ofNat 32 k) + BitVec.ofNat 32 k := by bv_omega
  by_cases hn : (b - (dst + BitVec.ofNat 32 k)).toNat < n
  · have hread : src + BitVec.ofNat 32 k + (b - (dst + BitVec.ofNat 32 k)) = src + (b - dst) := by
      bv_omega
    have hsrc : ¬ (src + (b - dst) - dst).toNat < k := fun hlt => hfar _ hlt (by
      unfold Within
      have hoff : src + (b - dst) - (src + BitVec.ofNat 32 k) =
          b - (dst + BitVec.ofNat 32 k) := by bv_omega
      rwa [hoff])
    have hin : (b - dst).toNat < k + n := by
      rw [hstep, BitVec.toNat_add, BitVec.toNat_ofNat]
      have h1 := Nat.mod_le ((b - (dst + BitVec.ofNat 32 k)).toNat + k % 2 ^ 32) (2 ^ 32)
      have h2 := Nat.mod_le k (2 ^ 32)
      omega
    rw [copy, if_pos hn, hread, copy, if_neg hsrc, copy, if_pos hin]
  · rw [copy, if_neg hn]
    by_cases hk : (b - dst).toNat < k
    · rw [copy, if_pos hk, copy, if_pos (by omega)]
    · have hout : ¬ (b - dst).toNat < k + n := fun hlt => hn (by bv_omega)
      rw [copy, if_neg hk, copy, if_neg hout]

theorem copyRep_eq (hlen : n * k ≤ 2 ^ 32)
    (hfar : ∀ b, Within dst (n * k) b → ¬ Within src (n * k) b) :
    m.copyRep dst src n k = m.copy dst src (n * k) := by
  induction k generalizing m dst src with
  | zero =>
    funext b
    simp [copyRep, copy]
  | succ k ih =>
    have hsucc : n * (k + 1) = n + n * k := by rw [Nat.mul_succ, Nat.add_comm]
    rw [hsucc] at hlen hfar ⊢
    have hoff : ∀ a b : Word, Within (a + BitVec.ofNat 32 n) (n * k) b → Within a (n + n * k) b :=
      fun a b hb => hb.of_offset (by
        have hmod := Nat.mod_le n (2 ^ 32)
        simpa using hmod)
    rw [copyRep, ih (by omega) fun b hb hb' => hfar b (hoff _ b hb) (hoff _ b hb'),
      copy_copy fun b hb hb' => hfar b (hb.mono (by omega)) (hoff _ b hb')]

end Copies

/-! ## Several words -/

/-- The words one after the other, from `a` up. -/
def writeWords (m : Mem) (a : Word) : List Word → Mem
  | [] => m
  | w :: ws => writeWords (m.write32 a w) (a + 4) ws

theorem writeWords_changes (m : Mem) (a : Word) (ws : List Word) (hlen : 4 * ws.length < 2 ^ 32) :
    ChangesAt (Within a (4 * ws.length)) m (m.writeWords a ws) := by
  induction ws generalizing m a with
  | nil => exact ChangesAt.refl m
  | cons v ws ih =>
    rw [List.length_cons] at hlen ⊢
    have h4 : (4 : Word).toNat = 4 := rfl
    have hhead : ChangesAt (Within a (4 * (ws.length + 1))) m (m.write32 a v) :=
      (ChangesAt.refl m).write32 fun b hb => hb.mono (by omega)
    exact hhead.trans ((ih _ (a + 4) (by omega)).mono fun b hb => hb.of_offset (by omega))

/-- The induction is on the words: the first one is written before the others, which lie above
it. -/
theorem read32_writeWords {ws : List Word} {i : Nat} (hw : ws[i]? = some w)
    (hlen : 4 * ws.length < 2 ^ 32) :
    (m.writeWords a ws).read32 (a + BitVec.ofNat 32 (4 * i)) = w := by
  induction ws generalizing m a i with
  | nil => cases hw
  | cons v ws ih =>
    rw [List.length_cons] at hlen
    cases i with
    | zero =>
      obtain rfl : v = w := Option.some.inj hw
      have hzero : a + BitVec.ofNat 32 (4 * 0) = a := by simp
      rw [writeWords, hzero, (writeWords_changes _ _ ws (by omega)).read32, read32_write32]
      intro b hb hb'
      exact hb.not_offset (k := 4) (by decide) (show 4 + _ ≤ _ by omega) hb'
    | succ i =>
      have hnext : a + BitVec.ofNat 32 (4 * (i + 1)) = a + 4 + BitVec.ofNat 32 (4 * i) := by
        bv_omega
      rw [writeWords, hnext]
      exact ih (by simpa using hw) (by omega)

end Mem

end Lib
