import Pitos.Properties.Heap

/-!
# Outstanding blocks

What the register of the heap says on where memory lies: the blocks that are out are apart from
each other and in the arena, and with their headers and trailers they fit into it
(`Ordinato.apart`, `Ordinato.somma`). A part of the register is somebody's own (`List.Subperm`):
the last lemmas say what is left of it when a block is given back and what the calls add.
-/

namespace Pitos

open Lib

/-- Two blocks have no byte in common. -/
def Disgiunti (v w : Word × Nat) : Prop :=
  v.1.toNat + v.2 ≤ w.1.toNat ∨ w.1.toNat + w.2 ≤ v.1.toNat

theorem Disgiunti.symm {v w : Word × Nat} (h : Disgiunti v w) : Disgiunti w v := Or.symm h

/-- The arena of `sbrk`. -/
def NellArena (v : Word × Nat) : Prop := 10000000 ≤ v.1.toNat ∧ v.1.toNat + v.2 ≤ 10512000

namespace Heap

variable {x y : Heap × Registro} {r : Registro} {l : Registro} {v : Word × Nat} {n : Nat} {p : Word}
  {e : Chiamata} {cs : List Chiamata}

/-- Without the block that goes the others are still there. -/
theorem tenuti_toglie (h : (v :: l).Subperm r) (hr : (r.map Prod.fst).Nodup) :
    l.Subperm (r.filter fun w => w.1 ≠ v.1) := by
  have hnd : ((v :: l).map Prod.fst).Nodup := by
    obtain ⟨l', hperm, hsub⟩ := h
    exact (hperm.map Prod.fst).nodup_iff.mp (hr.sublist (hsub.map Prod.fst))
  have hfilter := h.filter fun w => w.1 ≠ v.1
  have hall : l.filter (fun w => w.1 ≠ v.1) = l := by
    refine List.filter_eq_self.mpr fun w hw => decide_eq_true fun he => ?_
    exact (List.nodup_cons.mp hnd).1 (he ▸ List.mem_map_of_mem hw)
  rw [List.filter_cons_of_neg (by simp), hall] at hfilter
  exact hfilter

/-- A block of somebody else goes. -/
theorem tenuti_resta (h : l.Subperm r) (hp : p ∉ l.map Prod.fst) :
    l.Subperm (r.filter fun w => w.1 ≠ p) := by
  have hfilter := h.filter fun w => w.1 ≠ p
  have hall : l.filter (fun w => w.1 ≠ p) = l := by
    refine List.filter_eq_self.mpr fun w hw => decide_eq_true fun he => ?_
    exact hp (he ▸ List.mem_map_of_mem hw)
  rwa [hall] at hfilter

theorem Ordinato.unici (h : Ordinato x) : (x.2.map Prod.fst).Nodup := by
  rcases h with ⟨m, rfl⟩ | ⟨q, _, _, hr⟩
  · exact List.nodup_nil
  · exact hr.unici

theorem Ordinato.ok (h : Ordinato x) (he : Ammessa x.2 e) (hok : esegui x e = .ok y) :
    Ordinato y := by
  rcases h.passo he with hfail | ⟨z, hz, hord⟩
  · rw [hfail] at hok
    cases hok
  · obtain rfl := Except.ok.inj (hz.symm.trans hok)
    exact hord

theorem Ordinato.run (h : Ordinato x) (hrun : Run Passo x cs y) : Ordinato y :=
  hrun.invariant (fun _ _ _ hx hstep => hx.ok hstep.1 hstep.2) h

/-- The outstanding blocks lie in the arena, apart from each other. -/
theorem Ordinato.apart (h : Ordinato x) :
    x.2.Pairwise Disgiunti ∧ ∀ v ∈ x.2, NellArena v := by
  rcases h with ⟨m, rfl⟩ | ⟨q, hs, _, hr⟩
  · exact ⟨List.Pairwise.nil, fun v hv => absurd hv List.not_mem_nil⟩
  · have hdove : ∀ v ∈ x.2, ∃ b ∈ q.blocchi, v.1 = b.dati ∧ v.2 ≤ b.dim ∧
        v.1.toNat = b.inizio + 4 := by
      intro v hv
      obtain ⟨b, hb, hvb, hle⟩ := hr.usati v hv
      have hin := (hs.piano.usati b hb).1
      have hd := hs.piano.dove hin
      refine ⟨b, hin, hvb, hle, ?_⟩
      rw [hvb, Blocco.dati, BitVec.toNat_ofNat]
      omega
    have hpair : x.2.Pairwise fun v w => v.1 ≠ w.1 := by
      have hnodup := hr.unici
      rwa [List.Nodup, List.pairwise_map] at hnodup
    constructor
    · refine hpair.imp_of_mem fun {v w} hv hw hvw => ?_
      obtain ⟨b, hb, hvb, hvle, hvn⟩ := hdove v hv
      obtain ⟨c, hc, hwc, hwle, hwn⟩ := hdove w hw
      have hbc : b ≠ c := by
        rintro rfl
        exact hvw (hvb.trans hwc.symm)
      have hap := hs.piano.tessere.apart hb hc hbc
      unfold Blocco.fine at hap
      unfold Disgiunti
      omega
    · intro v hv
      obtain ⟨b, hb, _, hle, hn⟩ := hdove v hv
      have hd := hs.piano.dove hb
      exact ⟨by omega, by omega⟩

/-- With their headers and trailers the outstanding blocks fit into the arena. -/
theorem Ordinato.somma (h : Ordinato x) : (x.2.map fun v => v.2 + 8).sum ≤ 511992 := by
  rcases h with ⟨m, rfl⟩ | ⟨q, hs, _, hr⟩
  · exact Nat.zero_le _
  · -- a block for each entry of the register
    have hscelta : ∀ r : Registro, (r.map Prod.fst).Nodup →
        (∀ v ∈ r, ∃ b ∈ q.blocchi, v.1 = b.dati ∧ v.2 ≤ b.dim) →
        ∃ l : List Blocco, l.Nodup ∧ l ⊆ q.blocchi ∧ (∀ b ∈ l, b.dati ∈ r.map Prod.fst) ∧
          (r.map fun v => v.2 + 8).sum ≤ (l.map fun b => b.fine - b.inizio).sum := by
      intro r
      induction r with
      | nil =>
        exact fun _ _ => ⟨[], List.nodup_nil, List.nil_subset _, fun b hb => absurd hb
          List.not_mem_nil, Nat.le_refl _⟩
      | cons v r ih =>
        intro hnd hall
        rw [List.map_cons, List.nodup_cons] at hnd
        obtain ⟨l, hl, hsub, hmem, hle⟩ := ih hnd.2 fun w hw => hall w (List.mem_cons_of_mem _ hw)
        obtain ⟨b, hb, hvb, hdim⟩ := hall v List.mem_cons_self
        refine ⟨b :: l, List.nodup_cons.mpr ⟨fun hbl => ?_, hl⟩, List.cons_subset.mpr ⟨hb, hsub⟩,
          fun c hc => ?_, ?_⟩
        · exact hnd.1 (hvb ▸ hmem b hbl)
        · rw [List.map_cons]
          rcases List.mem_cons.mp hc with rfl | hc
          · exact hvb ▸ List.mem_cons_self
          · exact List.mem_cons_of_mem _ (hmem c hc)
        · have hfine : b.fine = b.inizio + b.dim + 8 := rfl
          rw [List.map_cons, List.map_cons, List.sum_cons, List.sum_cons]
          omega
    obtain ⟨l, hl, hsub, _, hle⟩ := hscelta x.2 hr.unici fun v hv => by
      obtain ⟨b, hb, hvb, hdim⟩ := hr.usati v hv
      exact ⟨b, (hs.piano.usati b hb).1, hvb, hdim⟩
    have hsum := hs.piano.tessere.sum_le hl hsub
    have hlim := hs.piano.limite
    omega

/-! ## One call after the other -/

/-- A call that takes memory. -/
def Chiamata.Prende : Chiamata → Nat → Prop
  | .malloc n, k | .new n, k | .vecNew n, k => n = k
  | _, _ => False

theorem Chiamata.Prende.ammessa (h : e.Prende n) (hn : n ≤ 512000) : Ammessa r e := by
  cases e with
  | malloc k | new k | vecNew k => exact (h : k = n) ▸ hn
  | _ => exact h.elim

/-- It adds what it returns to the register. -/
theorem Chiamata.Prende.esito (h : e.Prende n) (hok : esegui x e = .ok y) :
    ∃ p, y.2 = (p, n) :: x.2 := by
  have hmap : ∀ {k : Nat} {z : Except Arresto (Word × Heap)},
      (z.map fun w => (w.2, (w.1, k) :: x.2)) = .ok y → k = n → ∃ p, y.2 = (p, n) :: x.2 := by
    rintro k z hz rfl
    cases z with
    | error a => cases hz
    | ok w =>
      obtain rfl := Except.ok.inj hz
      exact ⟨w.1, rfl⟩
  cases e with
  | malloc k => exact hmap hok h
  | new k => exact hmap hok h
  | vecNew k => exact hmap hok h
  | _ => exact h.elim

/-- A call that gives memory back takes its pointer off. -/
theorem esegui_rende {e : Word → Chiamata} (he : e = .free ∨ e = .delete)
    (hok : esegui x (e p) = .ok y) : y.2 = x.2.filter fun w => w.1 ≠ p := by
  have hmap : ∀ {z : Except Arresto Heap},
      (z.map fun s => (s, x.2.filter fun w => w.1 ≠ p)) = .ok y →
        y.2 = x.2.filter fun w => w.1 ≠ p := by
    intro z hz
    cases z with
    | error a => cases hz
    | ok w =>
      obtain rfl := Except.ok.inj hz
      rfl
  rcases he with rfl | rfl
  · exact hmap hok
  · exact hmap hok

end Heap

end Pitos
