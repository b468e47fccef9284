import Pitos.Refinement.Arena

/-!
# What sbrk hands out

Nothing is given back, so the regions of the calls that return lie one after the other in the arena.
The test that keeps them there is made on a sum of two unsigned words, and a request so large that
the sum wraps passes it: that region goes past the arena, `allocated` falls back, and the next
regions lie over the first ones. `ki_malloc` never asks for so much.
-/

namespace Pitos

open Lib

namespace Concessioni

variable {m : Mem} {x : Concessioni} {sizes : List Word}

/-- Regions one after the other in the arena, and `allocated` is their size. -/
structure Ordinate (x : Concessioni) : Prop where
  disgiunte : x.regioni.Pairwise fun a b => Disjoint a.carrier b.carrier
  contigue : x.regioni.IsChain fun a b => b.start = a.stop
  dentro : ∀ a ∈ x.regioni, 10000000 ≤ a.start ∧ a.stop ≤ 10000000 + 512000
  allocata : x.heap.allocated.toNat = Region.total x.regioni

theorem Conta.ordinate {b : Bump Nat} (h : Conta x b) : Ordinate x := by
  have hcons := b.consecutive
  have hnext := hcons.eq_add_total
  have hlimit := b.next_le
  rw [h.limite] at hlimit
  constructor
  · rw [h.concesse]
    exact hcons.pairwise_disjoint
  · rw [h.concesse]
    exact hcons.isChain
  · rw [h.concesse]
    intro a ha
    obtain ⟨hstart, hstop⟩ := hcons.within a ha
    rw [h.inizio] at hstart
    exact ⟨hstart, hstop.trans hlimit⟩
  · rw [h.inizio] at hnext
    have halloc := h.allocata
    rw [h.concesse]
    omega

/-- In every sequence of calls: the regions are in order at every moment if and only if no call
makes the sum wrap. -/
theorem ordinate_iff (m : Mem) (sizes : List Word) :
    (∀ pre, pre <+: sizes → Ordinate (corsa m pre)) ↔
      ∀ pre size, pre ++ [size] <+: sizes →
        (corsa m pre).heap.allocated.toNat + size.toNat < 2 ^ 32 := by
  constructor
  · intro h pre size hpre
    by_contra hwrap
    have htotal := le_total_trabocca m (Nat.not_lt.mp hwrap)
    have hlater := total_mono m hpre
    have hend := (h sizes (List.prefix_refl _)).allocata
    have hle := allocated_le m sizes
    omega
  · intro h pre hpre
    have hsafe : Misurata m sizes := h
    exact (hsafe.mono hpre).conta.ordinate

/-- The sum of the second request wraps to 0, and the third region is the first one again. -/
theorem terza_sulla_prima :
    (corsa (fun _ => 0) [16, 0xFFFFFFF0, 16]).regioni =
        [⟨10000000, 16⟩, ⟨10000016, 4294967280⟩, ⟨10000000, 16⟩] ∧
      (corsa (fun _ => 0) [16, 0xFFFFFFF0]).heap.allocated = 0 ∧
      ¬ Ordinate (corsa (fun _ => 0) [16, 0xFFFFFFF0, 16]) := by
  have hregions : (corsa (fun _ => 0) [16, 0xFFFFFFF0, 16]).regioni =
      [⟨10000000, 16⟩, ⟨10000016, 4294967280⟩, ⟨10000000, 16⟩] := rfl
  refine ⟨hregions, rfl, ?_⟩
  intro h
  have hdisjoint := h.disgiunte
  rw [hregions, List.pairwise_cons] at hdisjoint
  have hself := hdisjoint.1 ⟨10000000, 16⟩ (by decide)
  rw [Set.disjoint_left] at hself
  have hmem : 10000000 ∈ Region.carrier (⟨10000000, 16⟩ : Region Nat) :=
    ⟨le_refl _, by decide⟩
  exact hself hmem hmem

/-- What `ki_malloc` asks for keeps the regions in order, whatever it is asked for. -/
theorem ordinate_richieste (m : Mem) (sizes : List Word) :
    Ordinate (corsa m (sizes.map fun size => Heap.arrotonda size + 16)) := by
  have hsafe : Misurata m (sizes.map fun size => Heap.arrotonda size + 16) := by
    intro pre chunk hpre
    have hmem := hpre.subset (List.mem_append_right _ (List.mem_singleton_self chunk))
    obtain ⟨size, -, rfl⟩ := List.mem_map.mp hmem
    have hround := Heap.arrotonda_le size
    have hchunk : (Heap.arrotonda size + 16).toNat ≤ 2 ^ 31 + 22 := by
      have hsixteen : (16 : Word).toNat = 16 := rfl
      rw [BitVec.toNat_add, hsixteen]
      omega
    have hle := allocated_le m pre
    omega
  exact hsafe.conta.ordinate

end Concessioni

end Pitos
