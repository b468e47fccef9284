import Pitos.Refinement.Blocks

/-!
# What the allocator does to the blocks

Besides changing the lists the allocator does nothing else than mark a block, split one, fuse
two neighbours and lengthen the arena. Each of these keeps `Sano`, with the description changed
accordingly.
-/

namespace Pitos

open Lib

namespace Heap

variable {V : Blocco → Prop} {m₀ m m' : Mem} {s s' : Heap} {q : Quadro} {b c d : Blocco} {k : Nat}

/-! ## Marking a block -/

theorem size_ptr (s : Heap) (b : Blocco) :
    s.size b.ptr = s.mem.read32 (BitVec.ofNat 32 b.inizio) := rfl

theorem Blocco.coda (b : Blocco) (n : Nat) :
    b.ptr + BitVec.ofNat 32 n + 4 = BitVec.ofNat 32 (b.inizio + n + 4) := by
  rw [b.ptr_add]
  exact (BitVec.ofNat_add _ _).symm

theorem endsz_ptr {n : Nat} (hs : s.size b.ptr = BitVec.ofNat 32 n) :
    s.endsz b.ptr = s.mem.read32 (BitVec.ofNat 32 (b.inizio + n + 4)) := by
  rw [endsz, hs, b.coda]

theorem setEndsz_ptr {n : Nat} {v : Word} (hs : s.size b.ptr = BitVec.ofNat 32 n) :
    s.setEndsz b.ptr v =
      { s with mem := s.mem.write32 (BitVec.ofNat 32 (b.inizio + n + 4)) v } := by
  rw [setEndsz, hs, b.coda]

theorem Etichetta.size {bit : Nat} (h : Etichetta s.mem b bit) :
    s.size b.ptr = BitVec.ofNat 32 (b.dim + bit) := h.1

/-- `RET` writes the two sizes with the bit and gives the memory of the block. -/
theorem ret_ptr (he : Etichetta s.mem b 0) (hb : b.inizio + b.dim + 8 ≤ 2 ^ 32)
    (hd : b.dim % 2 = 0) : s.ret b.ptr = (BitVec.ofNat 32 (b.inizio + 4),
      { s with
        mem := (s.mem.write32 (BitVec.ofNat 32 (b.inizio + b.dim + 4))
          (BitVec.ofNat 32 (b.dim + 1))).write32 (BitVec.ofNat 32 b.inizio)
            (BitVec.ofNat 32 (b.dim + 1)) }) := by
  obtain ⟨hh, ht⟩ := he
  have hend : s.endsz b.ptr ||| 1 = BitVec.ofNat 32 (b.dim + 1) := by
    rw [endsz_ptr (n := b.dim) hh, ht]
    exact Mem.or_one_ofNat hd
  have hsize : (s.mem.write32 (BitVec.ofNat 32 (b.inizio + b.dim + 4))
      (BitVec.ofNat 32 (b.dim + 1))).read32 (BitVec.ofNat 32 b.inizio) ||| 1 =
        BitVec.ofNat 32 (b.dim + 1) := by
    rw [Mem.read32_write32_number (by omega) (by omega) (by omega), hh]
    exact Mem.or_one_ofNat hd
  rw [ret, hend, setEndsz_ptr (n := b.dim) hh]
  simp only [size_ptr, hsize]
  refine Prod.ext ?_ rfl
  exact b.ptr_add 4

theorem Sano.marca (h : Sano V m₀ s q) (hb : q.Tolto b) :
    (s.ret b.ptr).1 = BitVec.ofNat 32 (b.inizio + 4) ∧
      Sano V m₀ (s.ret b.ptr).2 { q with usato := fun c => q.usato c ∨ c = b } := by
  obtain ⟨hin, hu, hl⟩ := hb
  have hd := h.piano.dove hin
  have hb32 : b.inizio + b.dim + 8 ≤ 2 ^ 32 := by omega
  have hch : Mem.ChangesAt (Mem.Between b.inizio b.fine) s.mem (s.ret b.ptr).2.mem := by
    rw [ret_ptr (h.piano.altri b hin hu) hb32 (by omega)]
    unfold Blocco.fine
    refine Mem.ChangesAt.write32_number ?_ (by omega) (by omega) (by omega)
    exact (Mem.ChangesAt.refl s.mem).write32_number (by omega) (by omega) (by omega)
  have het : Etichetta (s.ret b.ptr).2.mem b 1 := by
    rw [ret_ptr (h.piano.altri b hin hu) hb32 (by omega)]
    refine ⟨Mem.read32_write32 .., ?_⟩
    rw [Mem.read32_write32_number (by omega) (by omega) (by omega), Mem.read32_write32]
  refine ⟨by rw [ret_ptr (h.piano.altri b hin hu) hb32 (by omega)], ?_⟩
  exact
    { piano := h.piano.tocca (F := q.libero) hin (fun hV => hu (h.piano.custoditi b hV).1) hch
        (fun c hc => ⟨fun hcu => hcu.resolve_right hc, Or.inl⟩) (fun _ _ hc => hc) (fun _ => het)
        (fun hn => absurd (Or.inr rfl) hn) (fun hF => absurd hF hl)
      elenchi := h.elenchi.dentro h.piano hin hch rfl rfl rfl rfl fun hF => absurd hF hl
      separati := h.separati
      arena := h.arena
      atteso := h.atteso
      resi := h.resi }

/-- The bit is cleared in the two sizes. -/
theorem smarca_ptr (he : Etichetta s.mem b 1) (hb : b.inizio + b.dim + 8 ≤ 2 ^ 32)
    (hd : b.dim % 2 = 0) : s.smarca b.ptr =
      { s with
        mem := ((s.mem.write32 (BitVec.ofNat 32 b.inizio) (BitVec.ofNat 32 b.dim)).write32
          (BitVec.ofNat 32 (b.inizio + b.dim + 4)) (BitVec.ofNat 32 b.dim)).write32
            (BitVec.ofNat 32 (b.inizio + 8)) (-1) } := by
  obtain ⟨hh, ht⟩ := he
  have hclear : BitVec.ofNat 32 (b.dim + 1) &&& ~~~1 = BitVec.ofNat 32 b.dim := by
    have hlow := Mem.clear_low_ofNat (n := b.dim + 1) 1 (by omega)
    rwa [show (b.dim + 1) / 2 ^ 1 * 2 ^ 1 = b.dim by omega] at hlow
  have hfirst : s.setSize b.ptr (s.size b.ptr &&& ~~~1) =
      { s with mem := s.mem.write32 (BitVec.ofNat 32 b.inizio) (BitVec.ofNat 32 b.dim) } := by
    rw [size_ptr, hh, hclear]
    rfl
  have hsize : (s.setSize b.ptr (s.size b.ptr &&& ~~~1)).size b.ptr = BitVec.ofNat 32 b.dim := by
    rw [hfirst]
    exact Mem.read32_write32 ..
  have hend : (s.setSize b.ptr (s.size b.ptr &&& ~~~1)).endsz b.ptr &&& ~~~1 =
      BitVec.ofNat 32 b.dim := by
    rw [endsz_ptr hsize, hfirst, Mem.read32_write32_number (by omega) (by omega) (by omega), ht,
      hclear]
  rw [smarca, hend, setEndsz_ptr hsize, hfirst, setBucket]
  rw [show b.ptr + 8 = BitVec.ofNat 32 (b.inizio + 8) from b.ptr_add 8]

theorem Sano.smarca (h : Sano V m₀ s q) (hb : q.usato b) (hV : ¬ V b) :
    Sano V m₀ (s.smarca b.ptr) { q with usato := fun c => q.usato c ∧ c ≠ b } ∧
      Numerato (s.smarca b.ptr).mem b := by
  obtain ⟨hin, he⟩ := h.piano.usati b hb
  have hl : ¬ q.libero b := fun hl => (h.piano.liberi b hl).2.1 hb
  have hd := h.piano.dove hin
  have heq := smarca_ptr he (by omega) (by omega)
  have hch : Mem.ChangesAt (Mem.Between b.inizio b.fine) s.mem (s.smarca b.ptr).mem := by
    rw [heq]
    unfold Blocco.fine
    refine Mem.ChangesAt.write32_number ?_ (by omega) (by omega) (by omega)
    refine Mem.ChangesAt.write32_number ?_ (by omega) (by omega) (by omega)
    exact (Mem.ChangesAt.refl s.mem).write32_number (by omega) (by omega) (by omega)
  have het : Etichetta (s.smarca b.ptr).mem b 0 := by
    rw [heq]
    refine ⟨?_, ?_⟩
    · rw [Mem.read32_write32_number (by omega) (by omega) (by omega),
        Mem.read32_write32_number (by omega) (by omega) (by omega), Mem.read32_write32]
      rfl
    · rw [Mem.read32_write32_number (by omega) (by omega) (by omega), Mem.read32_write32]
      rfl
  have hnum : Numerato (s.smarca b.ptr).mem b := by
    rw [heq]
    exact Or.inl (Mem.read32_write32 ..)
  have hrest : (s.smarca b.ptr).freelist = s.freelist ∧ (s.smarca b.ptr).slop = s.slop := by
    rw [heq]
    exact ⟨rfl, rfl⟩
  refine ⟨?_, hnum⟩
  exact
    { piano := h.piano.tocca (F := q.libero) hin hV hch
        (fun c hc => ⟨And.left, fun hu => ⟨hu, hc⟩⟩) (fun _ _ hc => hc) (fun hu => absurd rfl hu.2)
        (fun _ => het) (fun hF => absurd hF hl)
      elenchi := h.elenchi.dentro h.piano hin hch hrest.1 hrest.2 rfl rfl fun hF => absurd hF hl
      separati := h.separati
      arena := by rw [heq]; exact h.arena
      atteso := by rw [heq]; exact h.atteso
      resi := by rw [heq]; exact h.resi }

/-! ## Other blocks in the same place -/

/-- Blocks in nobody's hands give way to others that fill the same interval; nothing outside it
changes. -/
theorem Piano.sostituisce {l v r w : List Blocco} {x y : Nat} (h : Piano V m₀ m q)
    (hq : q.blocchi = l ++ (v ++ r)) (hv : Tiles Blocco.inizio Blocco.fine x v y) (hne : v ≠ [])
    (hw : Tiles Blocco.inizio Blocco.fine x w y) (htolti : ∀ b ∈ v, q.Tolto b)
    (hmis : ∀ b ∈ w, b.inizio % 8 = 4 ∧ b.dim % 8 = 0 ∧ 8 ≤ b.dim)
    (het : ∀ b ∈ w, Etichetta m' b 0) (hch : Mem.ChangesAt (Mem.Between x y) m m') :
    Piano V m₀ m' { q with blocchi := l ++ (w ++ r) } := by
  obtain ⟨hl, hr⟩ := (hq ▸ h.tessere).around hv hne
  have hlx := hl.le
  have hry := hr.le
  have hlim := h.limite
  have hfuori : ∀ b ∈ q.blocchi, b ∉ v → b.fine ≤ x ∨ y ≤ b.inizio := by
    intro b hb hbv
    rw [hq] at hb
    rcases List.mem_append.mp hb with hb | hb
    · exact Or.inl (hl.bounds hb).2.2
    · rcases List.mem_append.mp hb with hb | hb
      · exact absurd hb hbv
      · exact Or.inr (hr.bounds hb).1
  have hresta : ∀ b ∈ q.blocchi, b ∉ v → b ∈ l ++ (w ++ r) := by
    intro b hb hbv
    rw [hq] at hb
    simp only [List.mem_append] at hb ⊢
    tauto
  have hparola : ∀ b ∈ q.blocchi, b ∉ v → ∀ k, b.inizio ≤ k → k + 4 ≤ b.inizio + b.dim + 8 →
      m'.read32 (BitVec.ofNat 32 k) = m.read32 (BitVec.ofNat 32 k) := by
    intro b hb hbv k hk hk'
    have hout := hfuori b hb hbv
    have hd := h.dove hb
    unfold Blocco.fine at hout
    exact hch.read32_number (by omega) (by omega)
  have hetichetta : ∀ b ∈ q.blocchi, b ∉ v → ∀ bit, Etichetta m b bit → Etichetta m' b bit := by
    intro b hb hbv bit he
    exact ⟨(hparola b hb hbv _ (by omega) (by omega)).trans he.1,
      (hparola b hb hbv _ (by omega) (by omega)).trans he.2⟩
  refine
    { tessere := (hq ▸ h.tessere).replace hv hne hw
      limite := h.limite
      misura := fun b hb => ?_
      primo := (hch.read32_number (by omega) (by omega)).trans h.primo
      ultimo := (hch.read32_number (Or.inr hry) (by omega)).trans h.ultimo
      usati := fun b hb => ?_
      altri := fun b hb hn => ?_
      liberi := fun b hb => ?_
      custoditi := fun b hb => ?_ }
  · by_cases hbw : b ∈ w
    · exact hmis b hbw
    · apply h.misura b
      rw [hq]
      simp only [List.mem_append] at hb ⊢
      tauto
  · obtain ⟨hin, he⟩ := h.usati b hb
    have hbv : b ∉ v := fun hbv => (htolti b hbv).fermo hb
    exact ⟨hresta b hin hbv, hetichetta b hin hbv 1 he⟩
  · by_cases hbw : b ∈ w
    · exact het b hbw
    · have hin : b ∈ l ∨ b ∈ r := by
        simp only [List.mem_append] at hb
        tauto
      have hin' : b ∈ q.blocchi := by
        rw [hq]
        simp only [List.mem_append]
        tauto
      have hbv : b ∉ v := by
        intro hbv
        have hbb := hv.bounds hbv
        rcases hin with hb | hb
        · have hbl := hl.bounds hb
          omega
        · have hbr := hr.bounds hb
          omega
      exact hetichetta b hin' hbv 0 (h.altri b hin' hn)
  · obtain ⟨hin, hu, hnum⟩ := h.liberi b hb
    have hbv : b ∉ v := fun hbv => (htolti b hbv).tolto hb
    have hd := h.dove hin
    refine ⟨hresta b hin hbv, hu, ?_⟩
    unfold Numerato
    rwa [hparola b hin hbv _ (by omega) (by omega)]
  · obtain ⟨hu, hint⟩ := h.custoditi b hb
    have hin := (h.usati b hu).1
    have hd := h.dove hin
    have hout := hfuori b hin fun hbv => (htolti b hbv).fermo hu
    unfold Blocco.fine at hout
    exact ⟨hu, fun k hk hk' => (hch.byte_number (by omega) (by omega)).trans (hint k hk hk')⟩

theorem Sano.sostituisce {l v r w : List Blocco} {x y : Nat} (h : Sano V m₀ s q)
    (hq : q.blocchi = l ++ (v ++ r)) (hv : Tiles Blocco.inizio Blocco.fine x v y) (hne : v ≠ [])
    (hw : Tiles Blocco.inizio Blocco.fine x w y) (htolti : ∀ b ∈ v, q.Tolto b)
    (hmis : ∀ b ∈ w, b.inizio % 8 = 4 ∧ b.dim % 8 = 0 ∧ 8 ≤ b.dim)
    (het : ∀ b ∈ w, Etichetta m b 0) (hch : Mem.ChangesAt (Mem.Between x y) s.mem m) :
    Sano V m₀ { s with mem := m } { q with blocchi := l ++ (w ++ r) } where
  __ := h
  piano := h.piano.sostituisce hq hv hne hw htolti hmis het hch
  elenchi := h.elenchi.conserva rfl rfl rfl rfl fun b hb => by
    obtain ⟨hin, _, _⟩ := h.piano.liberi b hb
    have hd := h.piano.dove hin
    obtain ⟨hl, hr⟩ := (hq ▸ h.piano.tessere).around hv hne
    have hry := hr.le
    rw [next_ptr, next_ptr]
    refine hch.read32_number ?_ (by omega)
    rw [hq] at hin
    rcases List.mem_append.mp hin with hb' | hb'
    · have hbl := (hl.bounds hb').2.2
      unfold Blocco.fine at hbl
      omega
    · rcases List.mem_append.mp hb' with hb' | hb'
      · exact absurd hb (htolti b hb').tolto
      · have hbr := (hr.bounds hb').1
        omega

/-- A block that is not in the arena is in nobody's hands. -/
theorem Piano.nuovo (h : Piano V m₀ m q) (hb : b ∉ q.blocchi) : ¬ q.usato b ∧ ¬ q.libero b :=
  ⟨fun hu => hb (h.usati b hu).1, fun hl => hb (h.liberi b hl).1⟩

/-! ## Splitting and joining -/

theorem splitBlock_ptr (hs : s.size b.ptr = BitVec.ofNat 32 b.dim) (hk : 8 ≤ k)
    (hkd : k + 16 ≤ b.dim) (hb : b.inizio + b.dim + 8 ≤ 2 ^ 32) :
    s.splitBlock b.ptr (BitVec.ofNat 32 k) = (BitVec.ofNat 32 (b.inizio + k + 8),
      { s with
        mem := ((((s.mem.write32 (BitVec.ofNat 32 (b.inizio + k + 8))
          (BitVec.ofNat 32 (b.dim - k - 8))).write32 (BitVec.ofNat 32 (b.inizio + k + 16))
            (-1)).write32 (BitVec.ofNat 32 b.inizio) (BitVec.ofNat 32 k)).write32
              (BitVec.ofNat 32 (b.inizio + k + 4)) (BitVec.ofNat 32 k)).write32
                (BitVec.ofNat 32 (b.inizio + b.dim + 4)) (BitVec.ofNat 32 (b.dim - k - 8)) }) := by
  obtain ⟨c, hc⟩ : ∃ c : Blocco, c = ⟨b.inizio + k + 8, b.dim - k - 8⟩ := ⟨_, rfl⟩
  have hrv : b.ptr + BitVec.ofNat 32 k + 8 = c.ptr := by
    rw [b.ptr_add, hc]
    exact (BitVec.ofNat_add _ _).symm
  have hdim : BitVec.ofNat 32 b.dim - BitVec.ofNat 32 k - 8 = BitVec.ofNat 32 c.dim := by
    rw [hc]
    bv_omega
  have hci : c.inizio = b.inizio + k + 8 := by rw [hc]
  have hcd : c.dim = b.dim - k - 8 := by rw [hc]
  rw [← hci, ← hcd]
  simp only [splitBlock, hrv, hs, hdim]
  -- the four writes up to the first trailer
  obtain ⟨m₁, hm₁⟩ : ∃ m₁, m₁ = ((s.mem.write32 (BitVec.ofNat 32 c.inizio)
      (BitVec.ofNat 32 c.dim)).write32 (BitVec.ofNat 32 (c.inizio + 8)) (-1)).write32
        (BitVec.ofNat 32 b.inizio) (BitVec.ofNat 32 k) := ⟨_, rfl⟩
  have h1 : ((s.setSize c.ptr (BitVec.ofNat 32 c.dim)).setBucket c.ptr (-1)).setSize b.ptr
      (BitVec.ofNat 32 k) = { s with mem := m₁ } := by
    rw [hm₁, ← c.ptr_add]
    rfl
  have hsb : { s with mem := m₁ }.size b.ptr = BitVec.ofNat 32 k := by
    rw [size_ptr, hm₁, Mem.read32_write32]
  have hsc : { s with
      mem := m₁.write32 (BitVec.ofNat 32 (b.inizio + k + 4)) (BitVec.ofNat 32 k) }.size c.ptr =
        BitVec.ofNat 32 c.dim := by
    rw [size_ptr, hm₁, Mem.read32_write32_number (by omega) (by omega) (by omega),
      Mem.read32_write32_number (by omega) (by omega) (by omega),
      Mem.read32_write32_number (by omega) (by omega) (by omega), Mem.read32_write32]
  rw [h1, hsb, setEndsz_ptr hsb, hsc, setEndsz_ptr hsc, hm₁]
  have h16 : c.inizio + 8 = b.inizio + k + 16 := by omega
  have hend : c.inizio + c.dim + 4 = b.inizio + b.dim + 4 := by omega
  rw [h16, hend]
  rfl

/-- A block in nobody's hands is cut in two. -/
theorem Sano.spezza (h : Sano V m₀ s q) (hb : q.Tolto b) (hk8 : k % 8 = 0) (hk : 8 ≤ k)
    (hkd : k + 16 ≤ b.dim) : ∃ l r a c, q.blocchi = l ++ b :: r ∧ a = Blocco.mk b.inizio k ∧
      c = Blocco.mk (b.inizio + k + 8) (b.dim - k - 8) ∧
      (s.splitBlock b.ptr (BitVec.ofNat 32 k)).1 = c.ptr ∧
      Numerato (s.splitBlock b.ptr (BitVec.ofNat 32 k)).2.mem c ∧
      Sano V m₀ (s.splitBlock b.ptr (BitVec.ofNat 32 k)).2
        { q with blocchi := l ++ ([a, c] ++ r) } := by
  obtain ⟨hin, hu, hl⟩ := id hb
  have hd := h.piano.dove hin
  obtain ⟨l, r, hq⟩ := List.append_of_mem hin
  obtain ⟨a, ha⟩ : ∃ a, a = Blocco.mk b.inizio k := ⟨_, rfl⟩
  obtain ⟨c, hc⟩ : ∃ c, c = Blocco.mk (b.inizio + k + 8) (b.dim - k - 8) := ⟨_, rfl⟩
  have hai : a.inizio = b.inizio := by rw [ha]
  have had : a.dim = k := by rw [ha]
  have hci : c.inizio = b.inizio + k + 8 := by rw [hc]
  have hcd : c.dim = b.dim - k - 8 := by rw [hc]
  have heq := splitBlock_ptr (k := k) (h.piano.altri b hin hu).size hk hkd (by omega)
  rw [← hci, ← hcd, show b.inizio + k + 16 = c.inizio + 8 by omega,
    show b.inizio + b.dim + 4 = c.inizio + c.dim + 4 by omega,
    show b.inizio + k + 4 = a.inizio + a.dim + 4 by omega, ← hai, ← had] at heq
  refine ⟨l, r, a, c, hq, ha, hc, ?_, ?_, ?_⟩
  · rw [← had, heq]
    rfl
  · rw [← had, heq]
    left
    simp (disch := omega) only [Mem.read32_write32_number, Mem.read32_write32]
  · rw [← had, heq]
    have htiles : Tiles Blocco.inizio Blocco.fine b.inizio [a, c] b.fine := by
      have hbc : b.fine = c.fine := by
        unfold Blocco.fine
        omega
      have hac : a.fine = c.inizio := by
        unfold Blocco.fine
        omega
      rw [hbc, ← hai]
      refine Tiles.cons ?_ (hac ▸ Tiles.single ?_) <;> unfold Blocco.fine <;> omega
    refine h.sostituisce hq (Tiles.single ?_) (List.cons_ne_nil b []) htiles ?_ ?_ ?_ ?_
    · unfold Blocco.fine
      omega
    · intro d hd
      obtain rfl := List.mem_singleton.mp hd
      exact hb
    · intro d hd
      simp only [List.mem_cons, List.not_mem_nil, or_false] at hd
      rcases hd with rfl | rfl <;> omega
    · intro d hd
      simp only [List.mem_cons, List.not_mem_nil, or_false] at hd
      rcases hd with rfl | rfl <;> refine ⟨?_, ?_⟩ <;>
        simp (disch := omega) only [Mem.read32_write32_number, Mem.read32_write32, Nat.add_zero]
    · unfold Blocco.fine
      refine Mem.ChangesAt.write32_number ?_ (by omega) (by omega) (by omega)
      refine Mem.ChangesAt.write32_number ?_ (by omega) (by omega) (by omega)
      refine Mem.ChangesAt.write32_number ?_ (by omega) (by omega) (by omega)
      refine Mem.ChangesAt.write32_number ?_ (by omega) (by omega) (by omega)
      exact (Mem.ChangesAt.refl s.mem).write32_number (by omega) (by omega) (by omega)

theorem unisci_ptr {a : Blocco} (ha : s.size a.ptr = BitVec.ofNat 32 a.dim)
    (hb : s.size b.ptr = BitVec.ofNat 32 b.dim) (hd : a.inizio + a.dim + b.dim + 16 ≤ 2 ^ 32) :
    s.unisci a.ptr b.ptr =
      { s with
        mem := ((s.mem.write32 (BitVec.ofNat 32 a.inizio)
          (BitVec.ofNat 32 (a.dim + b.dim + 8))).write32 (BitVec.ofNat 32 (a.inizio + 8))
            (-1)).write32 (BitVec.ofNat 32 (a.inizio + (a.dim + b.dim + 8) + 4))
              (BitVec.ofNat 32 (a.dim + b.dim + 8)) } := by
  have hdim : BitVec.ofNat 32 a.dim + (BitVec.ofNat 32 b.dim + 8) =
      BitVec.ofNat 32 (a.dim + b.dim + 8) := by
    bv_omega
  obtain ⟨m₁, hm₁⟩ : ∃ m₁, m₁ = (s.mem.write32 (BitVec.ofNat 32 a.inizio)
      (BitVec.ofNat 32 (a.dim + b.dim + 8))).write32 (BitVec.ofNat 32 (a.inizio + 8)) (-1) :=
    ⟨_, rfl⟩
  have h1 : (s.setSize a.ptr (BitVec.ofNat 32 (a.dim + b.dim + 8))).setBucket a.ptr (-1) =
      { s with mem := m₁ } := by
    rw [hm₁, ← a.ptr_add]
    rfl
  have hsa : { s with mem := m₁ }.size a.ptr = BitVec.ofNat 32 (a.dim + b.dim + 8) := by
    rw [size_ptr, hm₁, Mem.read32_write32_number (by omega) (by omega) (by omega),
      Mem.read32_write32]
  rw [unisci, ha, hb, hdim]
  simp only [h1, hsa]
  rw [setEndsz_ptr hsa, hm₁]

/-- Two neighbours in nobody's hands become one block. -/
theorem Sano.unisci {a : Blocco} (h : Sano V m₀ s q) (ha : q.Tolto a) (hb : q.Tolto b)
    (hab : a.fine = b.inizio) : ∃ l r c, q.blocchi = l ++ ([a, b] ++ r) ∧
      c = Blocco.mk a.inizio (a.dim + b.dim + 8) ∧
      Numerato (s.unisci a.ptr b.ptr).mem c ∧
      Sano V m₀ (s.unisci a.ptr b.ptr) { q with blocchi := l ++ ([c] ++ r) } := by
  have hda := h.piano.dove ha.dentro
  have hdb := h.piano.dove hb.dentro
  obtain ⟨l, r, hq⟩ := h.piano.tessere.adjacent ha.dentro hb.dentro hab
  obtain ⟨c, hc⟩ : ∃ c, c = Blocco.mk a.inizio (a.dim + b.dim + 8) := ⟨_, rfl⟩
  have hci : c.inizio = a.inizio := by rw [hc]
  have hcd : c.dim = a.dim + b.dim + 8 := by rw [hc]
  have hcb : c.fine = b.fine := by
    unfold Blocco.fine at hab ⊢
    omega
  have hlast : c.inizio + c.dim + 8 ≤ q.fine := by
    unfold Blocco.fine at hcb
    omega
  have heq := unisci_ptr (h.piano.altri a ha.dentro ha.fermo).size
    (h.piano.altri b hb.dentro hb.fermo).size (by omega)
  rw [← hci, ← hcd] at heq
  refine ⟨l, r, c, hq, hc, ?_, ?_⟩
  · rw [heq]
    left
    simp (disch := omega) only [Mem.read32_write32_number, Mem.read32_write32]
  · rw [heq]
    have hv : Tiles Blocco.inizio Blocco.fine c.inizio [a, b] c.fine := by
      rw [hci, hcb]
      refine Tiles.cons ?_ (hab ▸ Tiles.single ?_) <;> unfold Blocco.fine <;> omega
    refine h.sostituisce hq hv (List.cons_ne_nil a [b]) (Tiles.single ?_) ?_ ?_ ?_ ?_
    · unfold Blocco.fine
      omega
    · intro d hd
      simp only [List.mem_cons, List.not_mem_nil, or_false] at hd
      rcases hd with rfl | rfl
      · exact ha
      · exact hb
    · intro d hd
      obtain rfl := List.mem_singleton.mp hd
      omega
    · intro d hd
      obtain rfl := List.mem_singleton.mp hd
      refine ⟨?_, ?_⟩ <;>
        simp (disch := omega) only [Mem.read32_write32_number, Mem.read32_write32, Nat.add_zero]
    · unfold Blocco.fine
      refine Mem.ChangesAt.write32_number ?_ (by omega) (by omega) (by omega)
      refine Mem.ChangesAt.write32_number ?_ (by omega) (by omega) (by omega)
      exact (Mem.ChangesAt.refl s.mem).write32_number (by omega) (by omega) (by omega)

/-! ## A longer arena -/

theorem delimita_ptr (hb : b.inizio + b.dim + 12 ≤ 2 ^ 32) :
    s.delimita b.ptr (BitVec.ofNat 32 b.dim) =
      { s with
        mem := ((s.mem.write32 (BitVec.ofNat 32 b.inizio) (BitVec.ofNat 32 b.dim)).write32
          (BitVec.ofNat 32 (b.inizio + b.dim + 4)) (BitVec.ofNat 32 b.dim)).write32
            (BitVec.ofNat 32 (b.inizio + b.dim + 8)) 1 } := by
  obtain ⟨m₁, hm₁⟩ : ∃ m₁, m₁ = s.mem.write32 (BitVec.ofNat 32 b.inizio)
    (BitVec.ofNat 32 b.dim) := ⟨_, rfl⟩
  have h1 : s.setSize b.ptr (BitVec.ofNat 32 b.dim) = { s with mem := m₁ } := by
    rw [hm₁]
    rfl
  have hs1 : { s with mem := m₁ }.size b.ptr = BitVec.ofNat 32 b.dim := by
    rw [size_ptr, hm₁, Mem.read32_write32]
  have hs2 : { s with
      mem := m₁.write32 (BitVec.ofNat 32 (b.inizio + b.dim + 4)) (BitVec.ofNat 32 b.dim) }.size
        b.ptr = BitVec.ofNat 32 b.dim := by
    rw [size_ptr, Mem.read32_write32_number (by omega) (by omega) (by omega), hm₁,
      Mem.read32_write32]
  have hafter : b.ptr + BitVec.ofNat 32 b.dim + 8 = BitVec.ofNat 32 (b.inizio + b.dim + 8) := by
    rw [b.ptr_add]
    exact (BitVec.ofNat_add _ _).symm
  simp only [delimita, h1, hs1]
  rw [setEndsz_ptr hs1, after, hs2, hafter, setSize, hm₁]

/-- The end marker moves up and leaves a block in nobody's hands. -/
theorem Sano.allunga (h : Sano V m₀ s q) (hc : c.inizio = q.fine) (hd : c.dim % 8 = 0 ∧ 8 ≤ c.dim)
    (hal : q.fine % 8 = 4) (hlim : c.fine + 4 ≤ 10512000)
    (hch : Mem.ChangesAt (Mem.Between c.inizio (c.fine + 4)) s.mem s'.mem)
    (het : Etichetta s'.mem c 0) (hend : s'.mem.read32 (BitVec.ofNat 32 c.fine) = 1)
    (hf : s'.freelist = s.freelist) (hs : s'.slop = s.slop)
    (ha : s'.baseAddress = BitVec.ofNat 32 (c.fine + 4))
    (hx : s'.expectedSbrk = BitVec.ofNat 32 (c.fine + 4))
    (hr : s'.allocated = BitVec.ofNat 32 (c.fine + 4 - 10000000)) :
    Sano V m₀ s' { q with blocchi := q.blocchi ++ [c], fine := c.fine } := by
  have hq := h.piano.tessere.le
  have hparola : ∀ b ∈ q.blocchi, ∀ k, k + 4 ≤ b.inizio + b.dim + 8 →
      s'.mem.read32 (BitVec.ofNat 32 k) = s.mem.read32 (BitVec.ofNat 32 k) := by
    intro b hb k hk
    have hdb := h.piano.dove hb
    exact hch.read32_number (by omega) (by omega)
  have hetichetta : ∀ b ∈ q.blocchi, ∀ bit, Etichetta s.mem b bit → Etichetta s'.mem b bit := by
    intro b hb bit he
    exact ⟨(hparola b hb _ (by omega)).trans he.1, (hparola b hb _ (by omega)).trans he.2⟩
  have hpiano : Piano V m₀ s'.mem { q with blocchi := q.blocchi ++ [c], fine := c.fine } := by
    refine
      { tessere := h.piano.tessere.append ?_
        limite := hlim
        misura := fun b hb => ?_
        primo := (hch.read32_number (by omega) (by omega)).trans h.piano.primo
        ultimo := hend
        usati := fun b hb => ?_
        altri := fun b hb hn => ?_
        liberi := fun b hb => ?_
        custoditi := fun b hb => ?_ }
    · rw [← hc]
      apply Tiles.single
      unfold Blocco.fine
      omega
    · rcases List.mem_append.mp hb with hb | hb
      · exact h.piano.misura b hb
      · obtain rfl := List.mem_singleton.mp hb
        omega
    · obtain ⟨hin, he⟩ := h.piano.usati b hb
      exact ⟨List.mem_append_left _ hin, hetichetta b hin 1 he⟩
    · rcases List.mem_append.mp hb with hb | hb
      · exact hetichetta b hb 0 (h.piano.altri b hb hn)
      · obtain rfl := List.mem_singleton.mp hb
        exact het
    · obtain ⟨hin, hu, hnum⟩ := h.piano.liberi b hb
      have hdb := h.piano.dove hin
      refine ⟨List.mem_append_left _ hin, hu, ?_⟩
      unfold Numerato
      rwa [hparola b hin _ (by omega)]
    · obtain ⟨hu, hint⟩ := h.piano.custoditi b hb
      have hdb := h.piano.dove (h.piano.usati b hu).1
      exact ⟨hu, fun k hk hk' => (hch.byte_number (by omega) (by omega)).trans (hint k hk hk')⟩
  exact
    { piano := hpiano
      elenchi := h.elenchi.conserva hf hs rfl rfl fun b hb => by
        have hin := (h.piano.liberi b hb).1
        have hdb := h.piano.dove hin
        rw [next_ptr, next_ptr, hparola b hin _ (by omega)]
      separati := h.separati
      arena := ha
      atteso := hx
      resi := hr }

end Heap

end Pitos
