import Pitos.Boot.Loader

/-!
# The boot loader reads the program once and in order

The invariant of the loop of `load_program` (`Caricati`): `k` sectors are in place, the
position on the disk is `k + 1`, the sectors to go are `n - k`, and `es` is past what was
loaded. A turn of the loop reads at least one sector and leaves the next position valid.
-/

namespace Pitos

open Lib

namespace Boot

/-! ## Small numbers in 16 bits -/

theorem sle_piccoli {a b : BitVec 16} (ha : a.toNat < 2 ^ 15) (hb : b.toNat < 2 ^ 15) :
    a.sle b = decide (a.toNat ≤ b.toNat) := by
  rw [BitVec.sle_eq_decide, BitVec.toInt_eq_toNat_of_lt (by omega),
    BitVec.toInt_eq_toNat_of_lt (by omega)]
  simp only [Int.ofNat_le]

/-- `cmp a, b`, `jle` and `mov a, b`. -/
theorem minimo_toNat {a b : BitVec 16} (ha : a.toNat < 2 ^ 15) (hb : b.toNat < 2 ^ 15) :
    (if a.sle b then a else b).toNat = min a.toNat b.toNat := by
  rw [sle_piccoli ha hb]
  by_cases h : a.toNat ≤ b.toNat
  · rw [if_pos (decide_eq_true h)]
    omega
  · rw [if_neg (by simpa using h)]
    omega

theorem and_63 (w : BitVec 8) : (w &&& 0x3f).toNat = w.toNat % 64 := by
  rw [BitVec.toNat_and]
  exact Nat.and_two_pow_sub_one_eq_mod w.toNat 6

theorem and_1 (w : BitVec 8) : (w &&& 1).toNat = w.toNat % 2 := by
  rw [BitVec.toNat_and]
  exact Nat.and_two_pow_sub_one_eq_mod w.toNat 1

theorem lineare_toNat (seg off : BitVec 16) :
    (lineare seg off).toNat = seg.toNat * 16 + off.toNat := by
  have h1 := seg.isLt
  have h2 := off.isLt
  have h16 : (16 : Word).toNat = 16 := rfl
  simp only [lineare, BitVec.toNat_add, BitVec.toNat_mul, BitVec.toNat_setWidth, h16]
  omega

namespace Caricatore

variable {c : Caricatore}

/-- Linear number of the sector to be read next. -/
def posizione (c : Caricatore) : Nat :=
  (c.rdTrack.toNat * 2 + c.rdHead.toNat) * 18 + c.rdSec.toNat

/-- A surface that is over gives way to the next one, at the same position. -/
theorem limiti_posizione (hbx : c.reg.bx = 0) (hsec : c.rdSec.toNat ≤ 18)
    (hhead : c.rdHead.toNat ≤ 1) (hpos : c.posizione < 2000) :
    c.limiti.posizione = c.posizione ∧ c.limiti.rdSec.toNat < 18 ∧ c.limiti.rdHead.toNat ≤ 1 := by
  unfold posizione at hpos
  have h0 : (0 : BitVec 16).toNat = 0 := rfl
  unfold limiti posizione
  split
  · rename_i heq
    have h18 : c.rdSec.toNat = 18 := by rw [heq]; rfl
    split
    · rename_i hone
      have h1 : c.rdHead.toNat = 1 := by rw [hone]; rfl
      have htrack : (c.rdTrack + 1).toNat = c.rdTrack.toNat + 1 := by bv_omega
      simp only [hbx, htrack, h0]
      omega
    · rename_i hone
      have h1 : c.rdHead.toNat = 0 := by bv_omega
      have hh : (c.rdHead + 1).toNat = c.rdHead.toNat + 1 := by bv_omega
      simp only [hbx, hh, h0]
      omega
  · rename_i hne
    have h18 : c.rdSec.toNat ≠ 18 := fun h => hne (BitVec.eq_of_toNat_eq h)
    refine ⟨rfl, ?_, hhead⟩
    omega

/-- What `.continue` leaves alone. -/
theorem limiti_resto (c : Caricatore) : c.limiti.reg = c.reg ∧ c.limiti.rdTotal = c.rdTotal ∧
    c.limiti.mem = c.mem ∧ c.limiti.letture = c.letture := by
  unfold limiti
  split
  · split <;> exact ⟨rfl, rfl, rfl, rfl⟩
  · exact ⟨rfl, rfl, rfl, rfl⟩

/-- Eight sectors at most, no more than the surface has, no more than there are to be read. -/
theorem daLeggere_toNat (hsec : c.rdSec.toNat ≤ 18) (htot : c.rdTotal.toNat < 2 ^ 15) :
    c.daLeggere.toNat = min 8 (min (18 - c.rdSec.toNat) c.rdTotal.toNat) := by
  have hsub : (SECTRACK - c.rdSec).toNat = 18 - c.rdSec.toNat := by bv_omega
  have h8 : (8 : BitVec 16).toNat = 8 := rfl
  have hmin := minimo_toNat (a := SECTRACK - c.rdSec) (by omega) htot
  unfold daLeggere
  rw [minimo_toNat (by omega) (by omega)]
  omega

/-! ## One request -/

/-- The request for `q` sectors from the current position. -/
structure Chiede (c : Caricatore) (q : Nat) : Prop where
  valida : c.richiesta.Valida
  primo : c.richiesta.primo = c.posizione
  quanti : c.richiesta.quanti = q
  superficie : c.richiesta.settore - 1 + q ≤ 18
  destinazione : c.richiesta.destinazione = lineare c.reg.es c.reg.bx

/-- A position within the first 80 tracks is what the registers say to the BIOS. -/
theorem richiesta_chiede {q : Nat} (hsec : c.rdSec.toNat + q ≤ 18) (hhead : c.rdHead.toNat ≤ 1)
    (hpos : c.posizione < 2000) (hq : 1 ≤ q) (hax : c.reg.ax.toNat = q) : c.Chiede q := by
  unfold posizione at hpos
  have hcl : (bassa8 (c.rdSec + 1) &&& 0x3f).toNat = c.rdSec.toNat + 1 := by
    rw [and_63, bassa8_toNat]
    bv_omega
  have hch : (bassa8 c.rdTrack).toNat = c.rdTrack.toNat := by
    rw [bassa8_toNat]
    omega
  have hdh : (bassa8 c.rdHead &&& 1).toNat = c.rdHead.toNat := by
    rw [and_1, bassa8_toNat]
    omega
  have htraccia : c.richiesta.traccia = c.rdTrack.toNat := by
    simp only [Reg16.traccia, richiesta, alta8_append, bassa8_append, hch, hcl]
    omega
  have htestina : c.richiesta.testina = c.rdHead.toNat := by
    simp only [Reg16.testina, richiesta, alta8_append, hdh]
  have hsettore : c.richiesta.settore = c.rdSec.toNat + 1 := by
    simp only [Reg16.settore, richiesta, bassa8_append, hcl]
    omega
  have hquanti : c.richiesta.quanti = q := by
    simp only [Reg16.quanti, richiesta, bassa8_append, bassa8_toNat, hax]
    omega
  constructor
  · constructor
    · exact alta8_append _ _
    · exact bassa8_append _ _
    · omega
    · omega
    · omega
    · omega
    · omega
  · simp only [Reg16.primo, posizione, htraccia, htestina, hsettore, Nat.add_sub_cancel]
  · exact hquanti
  · omega
  · rfl

/-- A request that is answered. -/
structure Esaudita (disco : Nat → Nat → BitVec 8) (c t : Caricatore) (r : Reg16) : Prop where
  letture : t.letture = c.letture ++ [r]
  variabili : t.rdSec = c.rdSec ∧ t.rdHead = c.rdHead ∧ t.rdTrack = c.rdTrack ∧
    t.rdTotal = c.rdTotal
  reg : t.reg.bx = c.reg.bx ∧ t.reg.es = c.reg.es ∧ t.reg.dx = c.reg.dx
  legge : ∀ i j, i < r.quanti → j < 512 →
    t.mem (r.destinazione + BitVec.ofNat 32 (512 * i + j)) = disco (r.primo + i) j
  altrove : ∀ a, AreaProgramma a → ¬ Mem.Within r.destinazione (512 * r.quanti) a →
    t.mem a = c.mem a

theorem biosReadSectors_esaudita {disco : Nat → Nat → BitVec 8} {int13 : Int13}
    (hb : Legge disco int13) (hv : c.richiesta.Valida) :
    Esaudita disco c (c.biosReadSectors int13) c.richiesta where
  letture := rfl
  variabili := ⟨rfl, rfl, rfl, rfl⟩
  reg := ⟨hb.bx _ c.mem hv, hb.es _ c.mem hv, rfl⟩
  legge := hb.legge _ c.mem hv
  altrove := hb.altrove _ c.mem hv

/-! ## The loop -/

/-- What the program asks of each of its requests. -/
structure Giusta (r : Reg16) : Prop where
  quanti : 1 ≤ r.quanti ∧ r.quanti ≤ 8
  superficie : r.settore - 1 + r.quanti ≤ 18
  destinazione : r.destinazione.toNat = 0x30000 + 512 * (r.primo - 1)

/-- `k` sectors are in place, after the requests that follow `prima`. -/
structure Copiati (disco : Nat → Nat → BitVec 8) (k : Nat) (prima : List Reg16)
    (c : Caricatore) : Prop where
  letture : ∃ ls, c.letture = prima ++ ls ∧ ls.flatMap Reg16.settori = List.range' 1 k ∧
    ∀ r ∈ ls, Giusta r
  mem : ∀ i j, i < k → j < 512 →
    c.mem (BitVec.ofNat 32 (0x30000 + 512 * i + j)) = disco (i + 1) j

variable {disco : Nat → Nat → BitVec 8} {int13 : Int13} {n k q : Nat} {prima : List Reg16}
  {t : Caricatore}

/-- A request for the sectors after the first `k`. -/
theorem Chiede.giusta (hc : c.Chiede q) (hq : 1 ≤ q) (hq8 : q ≤ 8) (hk : k + q ≤ 1664)
    (hpos : c.posizione = k + 1) (hbx : c.reg.bx = 0)
    (hes : c.reg.es = BitVec.ofNat 16 (0x3000 + 32 * k)) :
    Giusta c.richiesta ∧ c.richiesta.primo = k + 1 := by
  have hprimo : c.richiesta.primo = k + 1 := hc.primo.trans hpos
  have hquanti := hc.quanti
  have hdest : c.richiesta.destinazione.toNat = 0x30000 + 512 * k := by
    have h0 : (0 : BitVec 16).toNat = 0 := rfl
    rw [hc.destinazione, lineare_toNat, hbx, hes, BitVec.toNat_ofNat, h0]
    omega
  refine ⟨⟨⟨by omega, by omega⟩, ?_, ?_⟩, hprimo⟩
  · rw [hquanti]
    exact hc.superficie
  · rw [hdest, hprimo, Nat.add_sub_cancel]

/-- Requests for the first `k` sectors, and one for those after them. -/
theorem letture_seguono {A : Reg16 → Prop} {ls₀ : List Reg16} {r : Reg16}
    (h : ∃ ls, ls₀ = prima ++ ls ∧ ls.flatMap Reg16.settori = List.range' 1 k ∧ ∀ r ∈ ls, A r)
    (hprimo : r.primo = k + 1) (hr : A r) :
    ∃ ls, ls₀ ++ [r] = prima ++ ls ∧
      ls.flatMap Reg16.settori = List.range' 1 (k + r.quanti) ∧ ∀ r ∈ ls, A r := by
  obtain ⟨ls, hls, hset, hA⟩ := h
  refine ⟨ls ++ [r], by rw [hls, List.append_assoc], ?_, fun r' hr' => ?_⟩
  · have hnew : r.settori = List.range' (1 + k) r.quanti := by
      rw [Reg16.settori, hprimo, Nat.add_comm]
    rw [List.flatMap_append, List.flatMap_singleton, hset, hnew]
    exact List.range'_append_1
  · rcases List.mem_append.mp hr' with hr' | hr'
    · exact hA r' hr'
    · obtain rfl := List.mem_singleton.mp hr'
      exact hr

/-- One more request. -/
theorem Copiati.esaudita (h : Copiati disco k prima c) (hc : c.Chiede q) (hq : 1 ≤ q)
    (hq8 : q ≤ 8) (hk : k + q ≤ 1664) (hpos : c.posizione = k + 1) (hbx : c.reg.bx = 0)
    (hes : c.reg.es = BitVec.ofNat 16 (0x3000 + 32 * k)) (ht : Esaudita disco c t c.richiesta) :
    Copiati disco (k + q) prima t := by
  obtain ⟨hgiusta, hprimo⟩ := hc.giusta hq hq8 hk hpos hbx hes
  have hdest : c.richiesta.destinazione.toNat = 0x30000 + 512 * k := by
    rw [hgiusta.destinazione, hprimo, Nat.add_sub_cancel]
  constructor
  · have hls := letture_seguono h.letture hprimo hgiusta
    rwa [← ht.letture, hc.quanti] at hls
  · intro i j hi hj
    by_cases hik : i < k
    · have harea : AreaProgramma (BitVec.ofNat 32 (0x30000 + 512 * i + j)) := by
        unfold AreaProgramma Mem.Within
        bv_omega
      rw [ht.altrove _ harea, h.mem i j hik hj]
      unfold Mem.Within
      rw [hc.quanti, BitVec.toNat_sub, hdest, BitVec.toNat_ofNat]
      omega
    · have haddr : BitVec.ofNat 32 (0x30000 + 512 * i + j) =
          c.richiesta.destinazione + BitVec.ofNat 32 (512 * (i - k) + j) := by
        apply BitVec.eq_of_toNat_eq
        rw [BitVec.toNat_add, hdest, BitVec.toNat_ofNat, BitVec.toNat_ofNat]
        omega
      have hsec : c.richiesta.primo + (i - k) = i + 1 := by omega
      rw [haddr, ht.legge (i - k) j (by rw [hc.quanti]; omega) hj, hsec]

/-- The variables at `.top`, after `k` of the `n` sectors. -/
structure InGiro (n k : Nat) (c : Caricatore) : Prop where
  quanti : k ≤ n
  bx : c.reg.bx = 0
  es : c.reg.es = BitVec.ofNat 16 (0x3000 + 32 * k)
  posizione : c.posizione = k + 1
  rdSec : c.rdSec.toNat ≤ 18
  rdHead : c.rdHead.toNat ≤ 1
  rdTotal : c.rdTotal.toNat = n - k

/-- At `.top`, with `k` of the `n` sectors in place. -/
structure Caricati (disco : Nat → Nat → BitVec 8) (n k : Nat) (prima : List Reg16)
    (c : Caricatore) : Prop where
  quanti : k ≤ n
  bx : c.reg.bx = 0
  es : c.reg.es = BitVec.ofNat 16 (0x3000 + 32 * k)
  posizione : c.posizione = k + 1
  rdSec : c.rdSec.toNat ≤ 18
  rdHead : c.rdHead.toNat ≤ 1
  rdTotal : c.rdTotal.toNat = n - k
  copiati : Copiati disco k prima c

theorem InGiro.caricati (h : InGiro n k c) (hc : Copiati disco k prima c) :
    Caricati disco n k prima c :=
  ⟨h.quanti, h.bx, h.es, h.posizione, h.rdSec, h.rdHead, h.rdTotal, hc⟩

theorem Caricati.inGiro (h : Caricati disco n k prima c) : InGiro n k c :=
  ⟨h.quanti, h.bx, h.es, h.posizione, h.rdSec, h.rdHead, h.rdTotal⟩

/-- The number of sectors of the request after `k` of `n`: eight, or what is left of the surface
or of the program. -/
def prossimi (n k : Nat) : Nat := min 8 (min (18 - (k + 1) % 18) (n - k))

/-- What is asked for in a turn. -/
theorem InGiro.chiede (hn : n ≤ 1664) (hk : k < n) (h : InGiro n k c) :
    c.limiti.prepara.Chiede (prossimi n k) ∧ InGiro n k c.limiti.prepara ∧
      c.limiti.prepara.reg.dx.toNat = prossimi n k ∧
      c.limiti.prepara.rdSec.toNat + prossimi n k ≤ 18 := by
  have hc := h.posizione
  obtain ⟨hpos, hsec, hhead⟩ := limiti_posizione h.bx h.rdSec h.rdHead (by omega)
  obtain ⟨hreg, htot, hmem, hlett⟩ := limiti_resto c
  have htotal : c.limiti.rdTotal.toNat = n - k := by rw [← h.rdTotal, ← htot]
  have hmod : (k + 1) % 18 = c.limiti.rdSec.toNat := by
    have hpos' : c.limiti.posizione = k + 1 := hpos.trans hc
    unfold Caricatore.posizione at hpos'
    omega
  have hq : c.limiti.daLeggere.toNat = prossimi n k := by
    rw [daLeggere_toNat (by omega) (by omega), htotal, prossimi, hmod]
  have hsec' : c.limiti.prepara.rdSec.toNat + prossimi n k ≤ 18 := by
    change c.limiti.rdSec.toNat + prossimi n k ≤ 18
    unfold prossimi
    omega
  have hpos' : c.limiti.prepara.posizione = k + 1 := hpos.trans hc
  have hq1 : 1 ≤ prossimi n k := by
    unfold prossimi
    omega
  exact ⟨richiesta_chiede hsec' hhead (by omega) hq1 hq,
    ⟨h.quanti, (congrArg Reg16.bx hreg).trans h.bx, (congrArg Reg16.es hreg).trans h.es, hpos',
      Nat.le_of_lt hsec, hhead, htotal⟩, hq, hsec'⟩

/-- After a request for the sectors that `dx` counts, the variables and `es` are moved on. -/
theorem InGiro.leggi (hbx : (int13 c.richiesta c.mem).1.bx = c.reg.bx)
    (hes : (int13 c.richiesta c.mem).1.es = c.reg.es) (h : InGiro n k c)
    (hdx : c.reg.dx.toNat = q) (hk : k + q ≤ n) (hn : n ≤ 1664) (hsec : c.rdSec.toNat + q ≤ 18) :
    InGiro n (k + q) (c.leggi int13) := by
  have hpos := h.posizione
  have htot := h.rdTotal
  have hsum : (c.rdSec + c.reg.dx).toNat = c.rdSec.toNat + q := by bv_omega
  have hes' : (c.leggi int13).reg.es = c.reg.es + c.reg.dx <<< 5 := by
    change (int13 c.richiesta c.mem).1.es + c.reg.dx <<< 5 = _
    rw [hes]
  unfold Caricatore.posizione at hpos
  refine ⟨hk, hbx.trans h.bx, ?_, ?_, ?_, h.rdHead, ?_⟩
  · have hshift : c.reg.dx <<< 5 = BitVec.ofNat 16 (32 * q) := by
      apply BitVec.eq_of_toNat_eq
      rw [BitVec.toNat_shiftLeft, Nat.shiftLeft_eq, hdx, BitVec.toNat_ofNat, Nat.mul_comm]
    rw [hes', h.es, hshift, BitVec.ofNat_add_ofNat]
    congr 1
    omega
  · change (c.rdTrack.toNat * 2 + c.rdHead.toNat) * 18 + (c.rdSec + c.reg.dx).toNat = _
    rw [hsum]
    omega
  · change (c.rdSec + c.reg.dx).toNat ≤ 18
    rw [hsum]
    exact hsec
  · change (c.rdTotal - c.reg.dx).toNat = _
    bv_omega

/-- The loop ends; what each of its turns keeps, `P` holds at the end. The induction is on the
turns, and the sectors that are left become fewer in each. -/
theorem InGiro.ciclo {P : Nat → Caricatore → Prop}
    (hbx : ∀ r m, r.Valida → (int13 r m).1.bx = r.bx)
    (hes : ∀ r m, r.Valida → (int13 r m).1.es = r.es) (hn : n ≤ 1664)
    (hP : ∀ k c, k < n → InGiro n k c → P k c →
      P (k + prossimi n k) (c.limiti.prepara.leggi int13)) {giri : Nat} (hg : n - k < giri)
    (h : InGiro n k c) (hc : P k c) :
    ∃ t, Caricatore.ciclo int13 giri c = some t ∧ InGiro n n t ∧ P n t := by
  induction giri generalizing c k with
  | zero => omega
  | succ giri ih =>
    have htot := h.rdTotal
    have hle := h.quanti
    unfold Caricatore.ciclo
    by_cases hk : k < n
    · obtain ⟨hchiede, hin, hdx, hsec⟩ := h.chiede hn hk
      have hne : c.rdTotal ≠ c.reg.bx := by
        rw [h.bx]
        bv_omega
      have hq1 : 1 ≤ prossimi n k := by
        unfold prossimi
        omega
      have hqn : k + prossimi n k ≤ n := by
        unfold prossimi
        omega
      rw [if_neg hne]
      refine ih (by omega) (hin.leggi ?_ ?_ hdx hqn hn hsec) (hP k c hk h hc)
      · exact hbx _ _ hchiede.valida
      · exact hes _ _ hchiede.valida
    · obtain rfl : k = n := by omega
      have heq : c.rdTotal = c.reg.bx := by
        rw [h.bx]
        bv_omega
      rw [if_pos heq]
      exact ⟨c, rfl, h, hc⟩

/-- A turn puts the sectors of its request in place. -/
theorem Copiati.giro (hb : Legge disco int13) (hn : n ≤ 1664) (hk : k < n) (hin : InGiro n k c)
    (h : Copiati disco k prima c) :
    Copiati disco (k + prossimi n k) prima (c.limiti.prepara.leggi int13) := by
  obtain ⟨hchiede, hin', -, -⟩ := hin.chiede hn hk
  obtain ⟨-, -, hmem, hlett⟩ := limiti_resto c
  have hcop : Copiati disco k prima c.limiti.prepara := by
    constructor
    · obtain ⟨ls, hls, hrest⟩ := h.letture
      exact ⟨ls, hlett.trans hls, hrest⟩
    · intro i j hi hj
      rw [← h.mem i j hi hj, ← hmem]
      rfl
  have hq : 1 ≤ prossimi n k ∧ prossimi n k ≤ 8 ∧ k + prossimi n k ≤ 1664 := by
    unfold prossimi
    omega
  have hnext := hcop.esaudita hchiede hq.1 hq.2.1 hq.2.2 hin'.posizione hin'.bx hin'.es
    (biosReadSectors_esaudita hb hchiede.valida)
  exact ⟨hnext.letture, hnext.mem⟩

/-- The loop ends with all the sectors in place. -/
theorem Caricati.ciclo (hb : Legge disco int13) (hn : n ≤ 1664) {giri : Nat} (hg : n - k < giri)
    (h : Caricati disco n k prima c) :
    ∃ t, Caricatore.ciclo int13 giri c = some t ∧ Caricati disco n n prima t := by
  obtain ⟨t, ht, hin, hcop⟩ := h.inGiro.ciclo (P := fun k c => Copiati disco k prima c) hb.bx hb.es
    hn (fun k c hk hin hc => hc.giro hb hn hk hin) hg h.copiati
  exact ⟨t, ht, hin.caricati hcop⟩

/-! ## The whole program -/

/-- The first double word of the image is its length, `n` sectors. -/
def Testata (disco : Nat → Nat → BitVec 8) (n : Nat) : Prop :=
  ∀ j, j < 4 → disco 1 j = (BitVec.ofNat 32 (512 * n)).extractLsb' (8 * j) 8

/-- The first request. -/
theorem inizio_chiede (c : Caricatore) : c.inizio.Chiede 1 :=
  richiesta_chiede (show 1 + 1 ≤ 18 by omega) (show 0 ≤ 1 by omega) (show 1 < 2000 by omega)
    (by omega) rfl

/-- The variables after the first sector, whose first word has been read. -/
theorem conta_inGiro (hbx : (int13 c.inizio.richiesta c.inizio.mem).1.bx = c.inizio.reg.bx)
    (hes : (int13 c.inizio.richiesta c.inizio.mem).1.es = c.inizio.reg.es)
    (hword : (int13 c.inizio.richiesta c.inizio.mem).2.read32 0x30000 = BitVec.ofNat 32 (512 * n))
    (hn1 : 1 ≤ n) (hn : n ≤ 1664) : InGiro n 1 (c.inizio.biosReadSectors int13).conta := by
  refine ⟨hn1, hbx, rfl, rfl, (show 2 ≤ 18 by omega), Nat.zero_le 1, ?_⟩
  have hbase : lineare c.inizio.reg.es 0 = 0x30000 := by
    change lineare LOADSEG 0 = _
    decide
  change ((((int13 c.inizio.richiesta c.inizio.mem).2.read32
    (lineare (int13 c.inizio.richiesta c.inizio.mem).1.es 0)) >>> 9).extractLsb' 0 16 - 1).toNat = _
  have hsectors : ((BitVec.ofNat 32 (512 * n)) >>> 9).extractLsb' 0 16 = BitVec.ofNat 16 n := by
    apply BitVec.eq_of_toNat_eq
    rw [BitVec.extractLsb'_toNat, BitVec.toNat_ushiftRight, Nat.shiftRight_zero,
      Nat.shiftRight_eq_div_pow, BitVec.toNat_ofNat, BitVec.toNat_ofNat]
    omega
  rw [hes, hbase, hword, hsectors]
  bv_omega

/-- The word that says how long the program is. -/
theorem testata_parola (hd : Testata disco n) {x : Mem}
    (hx : ∀ j, j < 4 → x (0x30000 + BitVec.ofNat 32 j) = disco 1 j) :
    x.read32 0x30000 = BitVec.ofNat 32 (512 * n) :=
  Mem.read32_eq fun j hj => (hx j hj).trans (hd j hj)

/-- After the first sector. -/
theorem conta_caricati (hb : Legge disco int13) (hd : Testata disco n) (hn1 : 1 ≤ n)
    (hn : n ≤ 1664) :
    Caricati disco n 1 c.letture (c.inizio.biosReadSectors int13).conta := by
  have hchiede := inizio_chiede c
  have hesaudita := biosReadSectors_esaudita hb hchiede.valida
  have hzero : Copiati disco 0 c.letture c.inizio :=
    ⟨⟨[], (List.append_nil _).symm, rfl, fun _ hr => absurd hr List.not_mem_nil⟩,
      fun i _ hi => absurd hi (Nat.not_lt_zero i)⟩
  have hcop := hzero.esaudita hchiede (by omega) (by omega) (by omega) rfl rfl rfl hesaudita
  have hword : (int13 c.inizio.richiesta c.inizio.mem).2.read32 0x30000 =
      BitVec.ofNat 32 (512 * n) := testata_parola hd fun j hj => by
    rw [← hcop.mem 0 j (by omega) (by omega)]
    have haddr : (0x30000 : Word) + BitVec.ofNat 32 j = BitVec.ofNat 32 (0x30000 + 512 * 0 + j) := by
      bv_omega
    rw [haddr]
    rfl
  exact (conta_inGiro (hb.bx _ _ hchiede.valida) (hb.es _ _ hchiede.valida) hword hn1 hn).caricati
    ⟨hcop.letture, hcop.mem⟩

end Caricatore

open Caricatore

/-- The loader ends; its requests are the sectors from 1 to `n`, once each and in order, of at
most eight sectors on one surface; and sector `i` is at 0x30000 + 512 * (i - 1). -/
theorem loadProgram_esatto {disco : Nat → Nat → BitVec 8} {int13 : Int13} (hb : Legge disco int13)
    {n : Nat} (hn : 1 ≤ n) (hfine : 0x30000 + 512 * n ≤ 0x100000) (hd : Testata disco n)
    (c : Caricatore) :
    ∃ giri t ls, loadProgram int13 giri c = some t ∧ t.letture = c.letture ++ ls ∧
      ls.flatMap Reg16.settori = List.range' 1 n ∧
      (∀ r ∈ ls, 1 ≤ r.quanti ∧ r.quanti ≤ 8 ∧ r.settore - 1 + r.quanti ≤ 18 ∧
        r.destinazione.toNat = 0x30000 + 512 * (r.primo - 1)) ∧
      ∀ i j, 1 ≤ i → i ≤ n → j < 512 →
        t.mem (BitVec.ofNat 32 (0x30000 + 512 * (i - 1) + j)) = disco i j := by
  have hfirst := conta_caricati (c := c) hb hd hn (by omega)
  obtain ⟨t, hrun, ht⟩ := hfirst.ciclo hb (by omega) (Nat.lt_succ_self (n - 1))
  obtain ⟨ls, hls, hset, hgiuste⟩ := ht.copiati.letture
  refine ⟨n - 1 + 1, t.killFloppyMotor, ls, ?_, hls, hset, ?_, ?_⟩
  · rw [loadProgram, hrun]
    rfl
  · intro r hr
    have hg := hgiuste r hr
    exact ⟨hg.quanti.1, hg.quanti.2, hg.superficie, hg.destinazione⟩
  · intro i j hi hin hj
    have hmem := ht.copiati.mem (i - 1) j (by omega) hj
    rwa [Nat.sub_add_cancel hi] at hmem

/-! A BIOS over a disk of one cylinder and a half, and a program that goes over the end of the
first surface and of the first track. -/

/-- Every byte of a sector is its number; the length stands in the first sector. -/
def dischetto (n sec j : Nat) : BitVec 8 :=
  if sec = 1 ∧ j < 4 then (BitVec.ofNat 32 (512 * n)).extractLsb' (8 * j) 8
  else BitVec.ofNat 8 sec

def bios (disco : Nat → Nat → BitVec 8) : Int13 := fun r m =>
  ({ r with cf := false }, fun a =>
    let k := (a - r.destinazione).toNat
    if k < 512 * r.quanti then disco (r.primo + k / 512) (k % 512) else m a)

theorem bios_legge (disco : Nat → Nat → BitVec 8) : Legge disco (bios disco) where
  legge := by
    intro r m _ i j hi hj
    have hq : r.quanti < 256 := (bassa8 r.ax).isLt
    have hk : (r.destinazione + BitVec.ofNat 32 (512 * i + j) - r.destinazione).toNat =
        512 * i + j := by bv_omega
    have hdiv : (512 * i + j) / 512 = i := by omega
    have hmod : (512 * i + j) % 512 = j := by omega
    simp only [bios, hk, hdiv, hmod]
    rw [if_pos (by omega)]
  altrove := by
    intro r m _ a _ ha
    exact if_neg ha
  bx := fun _ _ _ => rfl
  es := fun _ _ _ => rfl
  cf := fun _ _ _ => rfl

theorem loadProgram_esatto_cilindro : ∃ giri t ls,
    loadProgram (bios (dischetto 50)) giri
      ⟨⟨0, 0, 0, 0, 0, false⟩, 0, 0, 0, 0, fun _ => 0, [], []⟩ = some t ∧ t.letture = [] ++ ls ∧
      ls.flatMap Reg16.settori = List.range' 1 50 ∧
      (∀ r ∈ ls, 1 ≤ r.quanti ∧ r.quanti ≤ 8 ∧ r.settore - 1 + r.quanti ≤ 18 ∧
        r.destinazione.toNat = 0x30000 + 512 * (r.primo - 1)) ∧
      ∀ i j, 1 ≤ i → i ≤ 50 → j < 512 →
        t.mem (BitVec.ofNat 32 (0x30000 + 512 * (i - 1) + j)) = dischetto 50 i j :=
  loadProgram_esatto (bios_legge _) (by decide) (by decide)
    (fun j hj => by rw [dischetto, if_pos ⟨rfl, hj⟩]) _

end Boot

end Pitos
