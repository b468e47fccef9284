import Pitos.Kernel.Places
import Pitos.Kernel.Strings
import Pitos.Refinement.Events
import Pitos.Refinement.Footprint

/-!
# The name of the system

`ki_sysGetOsName` copies `len - 1` characters whatever they are. Up to `len = 15` they are those of
the name and its `NUL`; beyond that the copy goes on with what follows the literal, and a negative
`len` is as good as one of nearly `2^32`. `soloNome_iff` has the exact bound.
-/

namespace Pitos

open Lib

namespace OsName

variable {m : Mem} {p s : Word} {len : Int} {n : Nat} {b : Word}

/-! ## The loop -/

/-- The induction is on the turns. The memory and `p` are those of `copiaNome`. -/
theorem ciclo_eq (k fuel : Nat) (a : Accessi) (p s len : Word) (hk : (len - 1).toNat = k)
    (hfuel : k < fuel) : ciclo fuel a p s len = some
      ({ mem := (copiaNome k a.mem p s).1, letti := a.letti ++ Mem.addresses s k,
         scritti := a.scritti ++ Mem.addresses p k }, (copiaNome k a.mem p s).2) := by
  induction k generalizing fuel a p s len with
  | zero =>
    obtain ⟨fuel, rfl⟩ : ∃ f, fuel = f + 1 := ⟨fuel - 1, by omega⟩
    have hlen : len - 1 = 0 := BitVec.eq_of_toNat_eq hk
    rw [ciclo]
    simp only [if_pos hlen]
    simp [copiaNome, Mem.addresses]
  | succ k ih =>
    obtain ⟨fuel, rfl⟩ : ∃ f, fuel = f + 1 := ⟨fuel - 1, by omega⟩
    have hlen : len - 1 ≠ 0 := by
      intro h
      rw [h] at hk
      cases hk
    have hnext : (len - 1 - 1).toNat = k := by bv_omega
    rw [ciclo]
    simp only [if_neg hlen]
    rw [ih fuel _ _ _ _ hnext (by omega), Mem.addresses_succ, Mem.addresses_succ]
    simp [copiaNome]

/-- The turns of the loop. -/
def giri (len : Int) : Nat := ((len - 1) % 2 ^ 32).toNat

theorem giri_lt (len : Int) : giri len < 2 ^ 32 := by
  unfold giri
  omega

theorem giri_word (len : Int) : (BitVec.ofInt 32 len - 1).toNat = giri len := by
  have hone : (1 : Word).toNat = 1 := rfl
  rw [giri, BitVec.toNat_sub, BitVec.toNat_ofInt, hone]
  omega

/-- The call ends, and its accesses are these. -/
theorem accessi_eq (hlen : len ≠ 0) (hp : p ≠ 0) : accessi m p s len = some
    { mem := (copiaNome (giri len) m p s).1.write8 (copiaNome (giri len) m p s).2 0,
      letti := Mem.addresses s (giri len),
      scritti := Mem.addresses p (giri len + 1) } := by
  have hlt := giri_lt len
  have hgo : ¬ (len = 0 ∨ p = 0) := not_or.mpr ⟨hlen, hp⟩
  have hend := (copiaNome_changes (giri len) m p s hlt).2
  rw [accessi, if_neg hgo, ciclo_eq _ _ _ _ _ _ (giri_word len) hlt]
  simp [Mem.addresses, List.range_succ, hend]

/-- The memory is the one that the call leaves in the model of the system calls. -/
theorem accessi_mem (k : Kernel) (p : Word) (len : Int) :
    (accessi k.mem p k.link.osName len).map Accessi.mem = some (kiSysGetOsName p len k).mem := by
  by_cases h : len = 0 ∨ p = 0
  · rw [accessi, if_pos h, kiSysGetOsName, if_pos h]
    rfl
  · obtain ⟨hlen, hp⟩ := not_or.mp h
    rw [accessi_eq hlen hp, kiSysGetOsName, if_neg h]
    rfl

/-! ## The copy -/

/-- The source is not touched by a copy elsewhere. -/
theorem copiaNome_writeBytes (n : Nat) (m : Mem) (p s : Word) (hn : n < 2 ^ 32)
    (hfar : ∀ b, Mem.Within s n b → ¬ Mem.Within p n b) :
    (copiaNome n m p s).1 = m.writeBytes p (m.bytes s n) := by
  induction n generalizing m p s with
  | zero => rfl
  | succ n ih =>
    have h1 : (1 : Word).toNat = 1 := rfl
    have hrest : ∀ b, Mem.Within (s + 1) n b → ¬ Mem.Within (p + 1) n b := by
      intro b hb hb'
      exact hfar b (hb.of_offset (by omega)) (hb'.of_offset (by omega))
    have hsame : (m.write8 p (m s)).bytes (s + 1) n = m.bytes (s + 1) n := by
      apply Mem.bytes_congr _ (by omega)
      intro b hb
      have hne : b ≠ p := by
        rintro rfl
        exact hfar b (hb.of_offset (by omega)) (Mem.Within.self (Nat.succ_pos n))
      exact if_neg hne
    rw [copiaNome, ih _ _ _ (by omega) hrest, hsame, Mem.bytes_succ]
    rfl

/-- The call writes the bytes that it has read, and a zero. -/
theorem accessi_writeBytes (hlen : len ≠ 0) (hp : p ≠ 0)
    (hfar : ∀ b, Mem.Within s (giri len) b → ¬ Mem.Within p (giri len) b) :
    accessi m p s len = some
      { mem := m.writeBytes p (m.bytes s (giri len) ++ [0]),
        letti := Mem.addresses s (giri len),
        scritti := Mem.addresses p (giri len + 1) } := by
  have hlt := giri_lt len
  have hend := (copiaNome_changes (giri len) m p s hlt).2
  rw [accessi_eq hlen hp, copiaNome_writeBytes _ _ _ _ hlt hfar, hend, Mem.writeBytes_append,
    Mem.length_bytes]
  rfl

/-! ## What is disclosed -/

/-- The call writes into the buffer only, not more than `len` bytes, reads the literal only, and
leaves as much of the name as there is room for. -/
structure SoloNome (a : Accessi) (p s : Word) (len : Int) : Prop where
  buffer : ∀ b ∈ a.scritti, Mem.Within p len.toNat b
  quanti : a.scritti.length ≤ len.toNat
  letti : ∀ b ∈ a.letti, Mem.Within s (nome.length + 1) b
  stringa : 1 ≤ len → a.mem.IsString p (nome.take (min (len - 1).toNat nome.length))

theorem nome_nonzero : 0 ∉ nome := by decide

/-- Up to 14 characters are those of the name and its `NUL`. -/
theorem stringa_copiata (hs : m.IsString s nome) (hn : n ≤ 14) :
    (m.writeBytes p (m.bytes s n ++ [0])).IsString p (nome.take (min n nome.length)) := by
  have hname : nome.length = 13 := rfl
  by_cases hshort : n ≤ 13
  · rw [hs.bytes_take (by omega), Nat.min_eq_left (by omega)]
    apply Mem.isString_writeBytes
    · rw [List.length_append, List.length_take]
      exact (show _ ≤ 14 + 1 by simp only [List.length_singleton]; omega).trans (by decide)
    · exact fun h => nome_nonzero (List.mem_of_mem_take h)
  · obtain rfl : n = nome.length + 1 := by omega
    rw [hs.bytes_succ, Nat.min_eq_right (Nat.le_succ _), List.take_length, List.append_assoc]
    exact Mem.isString_writeBytes (by decide) nome_nonzero

/-- A positive length within the literal. -/
theorem soloNome_corto (hs : m.IsString s nome) (hp : p ≠ 0) (hlen : 1 ≤ len ∧ len ≤ 15)
    (hfar : ∀ b, Mem.Within s (nome.length + 1) b → ¬ Mem.Within p len.toNat b) :
    ∃ a, accessi m p s len = some a ∧ SoloNome a p s len := by
  have hname : nome.length = 13 := rfl
  have hgiri : giri len = (len - 1).toNat := by
    unfold giri
    omega
  have hsucc : (len - 1).toNat + 1 = len.toNat := by omega
  have hapart : ∀ b, Mem.Within s (giri len) b → ¬ Mem.Within p (giri len) b := by
    intro b hb hb'
    exact hfar b (hb.mono (by omega)) (hb'.mono (by omega))
  refine ⟨_, accessi_writeBytes (by omega) hp hapart, ?_, ?_, ?_, ?_⟩
  · intro b hb
    rw [hgiri, hsucc] at hb
    exact (Mem.mem_addresses (by omega)).mp hb
  · rw [Mem.length_addresses, hgiri, hsucc]
  · intro b hb
    rw [hgiri] at hb
    exact ((Mem.mem_addresses (by omega)).mp hb).mono (by omega)
  · intro _
    rw [hgiri]
    exact stringa_copiata hs (by omega)

/-- A longer one reads the byte after the literal. -/
theorem oltre_letti {a : Accessi} (hlen : 16 ≤ len ∧ len ≤ INT_MAX) (hp : p ≠ 0)
    (ha : accessi m p s len = some a) : s + 14 ∈ a.letti := by
  have hmax : INT_MAX = 2 ^ 31 - 1 := rfl
  have hgiri : 14 < giri len := by
    unfold giri
    omega
  rw [accessi_eq (by omega) hp] at ha
  obtain rfl := Option.some.inj ha
  exact List.mem_map.mpr ⟨14, List.mem_range.mpr hgiri, rfl⟩

/-- Any length but zero writes. -/
theorem scritti_ne_nil {a : Accessi} (hlen : len ≠ 0) (hp : p ≠ 0)
    (ha : accessi m p s len = some a) : 1 ≤ a.scritti.length := by
  rw [accessi_eq hlen hp] at ha
  obtain rfl := Option.some.inj ha
  rw [Mem.length_addresses]
  exact Nat.le_add_left 1 _

end OsName

open OsName in
/-- The call ends for every length, and discloses the name only, into the buffer only, exactly for
the lengths from 0 to 15: the literal with its `NUL` has 14 bytes. -/
theorem soloNome_iff (k : Kernel) (p : Word) (len : Int) (hint : Intero len) (hp : p ≠ 0)
    (hs : k.mem.IsString k.link.osName nome)
    (hfar : ∀ b, Mem.Within k.link.osName (nome.length + 1) b → ¬ Mem.Within p len.toNat b) :
    (∃ a, accessi k.mem p k.link.osName len = some a ∧ SoloNome a p k.link.osName len) ↔
      0 ≤ len ∧ len ≤ 15 := by
  obtain ⟨_, hmax⟩ := hint
  constructor
  · rintro ⟨a, ha, hsolo⟩
    constructor
    · by_contra hneg
      have hfirst := scritti_ne_nil (by omega) hp ha
      have hfew := hsolo.quanti
      omega
    · by_contra hlong
      have hread := hsolo.letti _ (oltre_letti ⟨by omega, hmax⟩ hp ha)
      have hname : nome.length = 13 := rfl
      unfold Mem.Within at hread
      rw [hname] at hread
      bv_omega
  · intro hlen
    by_cases hzero : len = 0
    · have hstart : accessi k.mem p k.link.osName len =
          some { mem := k.mem, letti := [], scritti := [] } := if_pos (Or.inl hzero)
      refine ⟨_, hstart, ?_, ?_, ?_, ?_⟩
      · intro b hb
        cases hb
      · exact Nat.zero_le _
      · intro b hb
        cases hb
      · intro hpos
        omega
    · exact soloNome_corto hs hp (by omega) hfar

namespace OsName

/-- An image with the literal at its place. -/
def conNome : Kernel :=
  { caricato with mem := Mem.writeBytes (fun _ => 0) caricato.link.osName (nome ++ [0]) }

theorem conNome_nome : conNome.mem.IsString conNome.link.osName nome :=
  Mem.isString_writeBytes (by decide) nome_nonzero

/-- What `umain` of `pmc3.cpp` asks for, 200 characters: the byte after the literal is read. -/
theorem umain_oltre :
    (accessi conNome.mem 0x200000 conNome.link.osName 200).map
        (fun a => a.letti.all fun b => decide (Mem.Within conNome.link.osName 14 b)) =
      some false := by
  decide +kernel

end OsName

open OsName in
theorem soloNome_iff_corto : ∃ a, accessi conNome.mem 0x200000 conNome.link.osName 8 = some a ∧
    SoloNome a 0x200000 conNome.link.osName 8 := by
  have hlink : conNome.link.osName = 0x30500 := rfl
  have hname : nome.length = 13 := rfl
  have hlen : (8 : Int).toNat = 8 := rfl
  apply (soloNome_iff conNome 0x200000 8 ⟨by decide, by decide⟩ (by decide) conNome_nome ?_).mpr
  · decide
  intro b hb hb'
  unfold Mem.Within at hb hb'
  rw [hlink, hname] at hb
  rw [hlen] at hb'
  bv_omega

end Pitos
