import Pitos.Properties.Loading

/-!
# The loader and the blocks of 64 KB

The transfers of the floppy go by DMA, which does not get over a multiple of 64 KB. The loader
does not look at this: `trasferimenti_entro` says which programs never ask for such a transfer.
-/

namespace Pitos

open Lib

namespace Boot

/-- The first and the last byte of the request are in one block of 64 KB. -/
def Reg16.Entro (r : Reg16) : Prop :=
  r.destinazione.toNat / 0x10000 = (r.destinazione.toNat + 512 * r.quanti - 1) / 0x10000

/-- A BIOS that carries out the transfers within a block; of the others nothing is said but that
they leave `BX` and `ES` alone. -/
structure Trasferisce (disco : Nat → Nat → BitVec 8) (int13 : Int13) : Prop where
  legge : ∀ r m, r.Valida → r.Entro → ∀ i j, i < r.quanti → j < 512 →
    (int13 r m).2 (r.destinazione + BitVec.ofNat 32 (512 * i + j)) = disco (r.primo + i) j
  bx : ∀ r m, r.Valida → (int13 r m).1.bx = r.bx
  es : ∀ r m, r.Valida → (int13 r m).1.es = r.es

namespace Caricatore

variable {disco : Nat → Nat → BitVec 8} {int13 : Int13} {n k : Nat} {prima ls : List Reg16}
  {c : Caricatore} {r : Reg16}

/-- A request of a run with `n` sectors: the first one is for one sector, and the others are as
long as they can be. -/
structure Emessa (n : Nat) (r : Reg16) : Prop where
  giusta : Giusta r
  quanti : r.primo = 1 ∧ r.quanti = 1 ∨ r.quanti = prossimi n (r.primo - 1)

/-- The requests that follow `prima` are for the first `k` sectors. -/
def Richieste (n k : Nat) (prima : List Reg16) (c : Caricatore) : Prop :=
  ∃ ls, c.letture = prima ++ ls ∧ ls.flatMap Reg16.settori = List.range' 1 k ∧ ∀ r ∈ ls, Emessa n r

/-- A turn makes one request. -/
theorem Richieste.giro (hn : n ≤ 1664) (hk : k < n) (hin : InGiro n k c)
    (h : Richieste n k prima c) :
    Richieste n (k + prossimi n k) prima (c.limiti.prepara.leggi int13) := by
  obtain ⟨hchiede, hin', -, -⟩ := hin.chiede hn hk
  have hq : 1 ≤ prossimi n k ∧ prossimi n k ≤ 8 ∧ k + prossimi n k ≤ 1664 := by
    unfold prossimi
    omega
  obtain ⟨hgiusta, hprimo⟩ := hchiede.giusta hq.1 hq.2.1 hq.2.2 hin'.posizione hin'.bx hin'.es
  have hquanti := hchiede.quanti
  have hemessa : Emessa n c.limiti.prepara.richiesta := by
    refine ⟨hgiusta, Or.inr ?_⟩
    rw [hquanti, hprimo, Nat.add_sub_cancel]
  have hls := letture_seguono h hprimo hemessa
  rw [hquanti, ← (limiti_resto c).2.2.2] at hls
  exact hls

/-- The requests of a whole run. -/
theorem loadProgram_richieste (hb : Trasferisce disco int13) (hd : Testata disco n) (hn1 : 1 ≤ n)
    (hn : n ≤ 1664) (c : Caricatore) :
    ∃ giri t, loadProgram int13 giri c = some t ∧ Richieste n n c.letture t := by
  have hchiede := inizio_chiede c
  obtain ⟨hgiusta, hprimo⟩ := hchiede.giusta (k := 0) (by omega) (by omega) (by omega) rfl rfl rfl
  have hdest : c.inizio.richiesta.destinazione.toNat = 0x30000 := by
    rw [hgiusta.destinazione, hprimo]
  have hdest' : c.inizio.richiesta.destinazione = 0x30000 := BitVec.eq_of_toNat_eq hdest
  have hentro : c.inizio.richiesta.Entro := by
    unfold Reg16.Entro
    rw [hdest, hchiede.quanti]
  have hword : (int13 c.inizio.richiesta c.inizio.mem).2.read32 0x30000 =
      BitVec.ofNat 32 (512 * n) := testata_parola hd fun j hj => by
    have hbyte := hb.legge _ c.inizio.mem hchiede.valida hentro 0 j
      (by rw [hchiede.quanti]; omega) (by omega)
    rw [hdest', hprimo] at hbyte
    simpa using hbyte
  have hin := conta_inGiro (c := c) (hb.bx _ _ hchiede.valida) (hb.es _ _ hchiede.valida) hword
    hn1 hn
  have hfirst : Richieste n 1 c.letture (c.inizio.biosReadSectors int13).conta := by
    have hemessa : Emessa n c.inizio.richiesta := ⟨hgiusta, Or.inl ⟨hprimo, hchiede.quanti⟩⟩
    have hnil : ∃ ls, c.letture = c.letture ++ ls ∧
        ls.flatMap Reg16.settori = List.range' 1 0 ∧ ∀ r ∈ ls, Emessa n r :=
      ⟨[], (List.append_nil _).symm, rfl, fun _ hr => absurd hr List.not_mem_nil⟩
    have hls := letture_seguono hnil hprimo hemessa
    rw [hchiede.quanti] at hls
    exact hls
  obtain ⟨t, ht, -, hrich⟩ := hin.ciclo (P := fun k c' => Richieste n k c.letture c') hb.bx hb.es hn
    (fun _ _ hk hin h => h.giro hn hk hin) (Nat.lt_succ_self (n - 1)) hfirst
  refine ⟨n - 1 + 1, t.killFloppyMotor, ?_, hrich⟩
  rw [loadProgram, ht]
  rfl

/-! ## Where the requests fall -/

/-- A request is for sectors of the program. -/
theorem Emessa.settori (hset : ls.flatMap Reg16.settori = List.range' 1 n) (hr : r ∈ ls)
    (he : Emessa n r) : 1 ≤ r.primo ∧ r.primo + r.quanti ≤ n + 1 := by
  have hq := he.giusta.quanti.1
  have hmem : ∀ i, r.primo ≤ i → i < r.primo + r.quanti → 1 ≤ i ∧ i < 1 + n := fun i hi hi' => by
    have hfl : i ∈ ls.flatMap Reg16.settori :=
      List.mem_flatMap.mpr ⟨r, hr, List.mem_range'_1.mpr ⟨hi, hi'⟩⟩
    rw [hset] at hfl
    exact List.mem_range'_1.mp hfl
  have hlast := hmem (r.primo + r.quanti - 1) (by omega) (by omega)
  have hfirst := hmem r.primo (by omega) (by omega)
  omega

/-- The 128 sectors that follow 0x30000 fill a block. -/
theorem Emessa.entro_iff (he : Emessa n r) (h1 : 1 ≤ r.primo) :
    r.Entro ↔ (r.primo - 1) / 128 = (r.primo + r.quanti - 2) / 128 := by
  have hq := he.giusta.quanti.1
  rw [Reg16.Entro, he.giusta.destinazione]
  omega

/-- No request of a longer program ends with sector 128, the last one of the first block. -/
theorem Emessa.attraversa (he : Emessa n r) (hn : 129 ≤ n) (h128 : r.primo ≤ 128)
    (hend : 128 < r.primo + r.quanti) : 2 ≤ r.quanti ∧ ¬ r.Entro := by
  have hq := he.giusta.quanti
  have h1 : 1 ≤ r.primo := by omega
  rw [he.entro_iff h1]
  rcases he.quanti with ⟨hone, hq1⟩ | hlong
  · omega
  · unfold prossimi at hlong
    omega

/-- The request that has sector 128 goes on with sector 129, in the next block. -/
theorem attraversata (hset : ls.flatMap Reg16.settori = List.range' 1 n)
    (h : ∀ r ∈ ls, Emessa n r) (hn : 129 ≤ n) : ∃ r ∈ ls, 2 ≤ r.quanti ∧ ¬ r.Entro := by
  have h128 : 128 ∈ ls.flatMap Reg16.settori := by
    rw [hset]
    exact List.mem_range'_1.mpr ⟨by omega, by omega⟩
  obtain ⟨r, hr, hsec⟩ := List.mem_flatMap.mp h128
  obtain ⟨hle, hlt⟩ := List.mem_range'_1.mp hsec
  exact ⟨r, hr, (h r hr).attraversa hn hle hlt⟩

end Caricatore

open Caricatore

/-- **The transfers of the loader.** None of those for more than one sector gets over a multiple
of 64 KB exactly when the program has 128 sectors at most. -/
theorem trasferimenti_entro {disco : Nat → Nat → BitVec 8} {int13 : Int13}
    (hb : Trasferisce disco int13) {n : Nat} (hn : 1 ≤ n) (hfine : 0x30000 + 512 * n ≤ 0x100000)
    (hd : Testata disco n) (c : Caricatore) :
    ∃ giri t ls, loadProgram int13 giri c = some t ∧ t.letture = c.letture ++ ls ∧
      ((∀ r ∈ ls, 2 ≤ r.quanti → r.Entro) ↔ n ≤ 128) := by
  obtain ⟨giri, t, hrun, ls, hls, hset, hemesse⟩ := loadProgram_richieste hb hd hn (by omega) c
  refine ⟨giri, t, ls, hrun, hls, fun h => ?_, fun hshort r hr _ => ?_⟩
  · by_contra hlong
    obtain ⟨r, hr, hq, hno⟩ := attraversata hset hemesse (by omega)
    exact hno (h r hr hq)
  · obtain ⟨h1, hend⟩ := (hemesse r hr).settori hset hr
    rw [(hemesse r hr).entro_iff h1]
    omega

theorem bios_trasferisce (disco : Nat → Nat → BitVec 8) : Trasferisce disco (bios disco) where
  legge := fun r m hv _ => (bios_legge disco).legge r m hv
  bx := (bios_legge disco).bx
  es := (bios_legge disco).es

/-- A program of 50 sectors. -/
theorem trasferimenti_entro_corsa : ∃ giri t ls,
    loadProgram (bios (dischetto 50)) giri
      ⟨⟨0, 0, 0, 0, 0, false⟩, 0, 0, 0, 0, fun _ => 0, [], []⟩ = some t ∧ t.letture = ls ∧
      ∀ r ∈ ls, 2 ≤ r.quanti → r.Entro := by
  obtain ⟨giri, t, ls, hrun, hls, hiff⟩ := trasferimenti_entro (bios_trasferisce (dischetto 50))
    (n := 50) (by decide) (by decide) (fun j hj => by rw [dischetto, if_pos ⟨rfl, hj⟩])
    ⟨⟨0, 0, 0, 0, 0, false⟩, 0, 0, 0, 0, fun _ => 0, [], []⟩
  exact ⟨giri, t, ls, hrun, hls, hiff.mpr (by decide)⟩

/-- A program of 129 sectors. -/
theorem blocco_attraversato : ∃ giri t ls,
    loadProgram (bios (dischetto 129)) giri
      ⟨⟨0, 0, 0, 0, 0, false⟩, 0, 0, 0, 0, fun _ => 0, [], []⟩ = some t ∧ t.letture = ls ∧
      ∃ r ∈ ls, 2 ≤ r.quanti ∧ ¬ r.Entro := by
  obtain ⟨giri, t, hrun, ls, hls, hset, hemesse⟩ := loadProgram_richieste
    (bios_trasferisce (dischetto 129)) (fun j hj => by rw [dischetto, if_pos ⟨rfl, hj⟩])
    (by decide) (by decide) ⟨⟨0, 0, 0, 0, 0, false⟩, 0, 0, 0, 0, fun _ => 0, [], []⟩
  exact ⟨giri, t, ls, hrun, hls, attraversata hset hemesse (by decide)⟩

end Boot

end Pitos
