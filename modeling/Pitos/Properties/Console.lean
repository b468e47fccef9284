import Mathlib.Data.List.Induction
import Pitos.Kernel.Video

/-!
# The cursor of the console

Newlines and the end of a line leave the cursor outside the page, and the next character that is
written brings it back: between two characters the column is at most 80 and the row exceeds the
page by no more than the newlines so far (`Cursore`). So what is written is always inside.
-/

namespace Pitos

namespace Video

open Schermo

/-! ## Pages -/

/-- The first cell of a page. -/
def inizio (page : Int) : Int := VIDEOMEM + page * 4096

/-- The screen with a page on show. -/
def mostra (s : Schermo) (page : Int) : Schermo :=
  { s with
    crtc := ⟨13, BitVec.ofInt 8 (page * 2 ^ 11 / 2 ^ 8), BitVec.ofInt 8 (page * 2 ^ 11)⟩
    start := inizio page
    currentPage := page }

/-- The variables and the display controller agree on the page. -/
structure Coerente (s : Schermo) : Prop where
  pagina : 0 ≤ s.currentPage ∧ s.currentPage ≤ 7
  start : s.start = inizio s.currentPage
  alto : s.crtc.alto = BitVec.ofInt 8 (s.currentPage * 2 ^ 11 / 2 ^ 8)
  basso : s.crtc.basso = BitVec.ofInt 8 (s.currentPage * 2 ^ 11)

/-- The page that a request selects: one that does not exist leaves the current one. -/
def scelta (s : Schermo) (page : Int) : Int :=
  if page < 0 ∨ page > 7 then s.currentPage else page

variable {s s' s'' : Schermo} {page : Int}

theorem videoSetpage_fst (s : Schermo) (page : Int) : (s.videoSetpage page).1 = s.currentPage := by
  unfold videoSetpage
  split <;> rfl

theorem videoSetpage_valida (s : Schermo) (h : 0 ≤ page ∧ page ≤ 7) :
    (s.videoSetpage page).2 = mostra s page := by
  have hin : ¬ (page < 0 ∨ page > 7) := by omega
  unfold videoSetpage
  rw [if_neg hin]
  rfl

theorem videoSetpage_invalida (s : Schermo) (h : page < 0 ∨ page > 7) :
    (s.videoSetpage page).2 = s := by
  unfold videoSetpage
  rw [if_pos h]

/-- `log_init` makes the variables and the controller agree. -/
theorem coerente_logInit (s : Schermo) : Coerente s.logInit := by
  rw [logInit, videoSetpage_valida s (by decide)]
  have hzero : (0 : Int) ≤ 0 ∧ (0 : Int) ≤ 7 := by decide
  exact ⟨hzero, rfl, rfl, rfl⟩

theorem Coerente.scelta (h : Coerente s) (page : Int) :
    0 ≤ scelta s page ∧ scelta s page ≤ 7 := by
  have hp := h.pagina
  unfold Video.scelta
  split <;> omega

/-! ## One character -/

/-- The cursor after `k` newlines. -/
structure Cursore (k : Nat) (s : Schermo) : Prop where
  col : 0 ≤ s.lastCol ∧ s.lastCol ≤ 80
  row : 0 ≤ s.lastRow ∧ s.lastRow ≤ 25 + k

/-- Column and row are those of a cell of the page. -/
def Dentro (x : Int × Int × BitVec 8) : Prop :=
  0 ≤ x.1 ∧ x.1 < 80 ∧ 0 ≤ x.2.1 ∧ x.2.1 < VIDEOROWS

theorem int32_piccolo {x : Int} (h : 0 ≤ x) (h' : x < 2 ^ 31) : int32 x = x :=
  int32_of_range (by omega) (Int.le_sub_one_of_lt h')

/-- What printing changes. -/
structure Stampato (s s' : Schermo) : Prop where
  crtc : s'.crtc = s.crtc
  start : s'.start = s.start
  currentPage : s'.currentPage = s.currentPage
  logRow : s'.logRow = s.logRow
  chiamate : ∃ nuove, s'.chiamate = s.chiamate ++ nuove ∧ ∀ x ∈ nuove, Dentro x
  mem : ∀ a, s'.mem a ≠ s.mem a → s.start ≤ a ∧ a + 2 ≤ s.start + 4096

theorem Stampato.refl (s : Schermo) : Stampato s s :=
  ⟨rfl, rfl, rfl, rfl, ⟨[], by simp, by simp⟩, fun _ h => absurd rfl h⟩

theorem Stampato.trans (h : Stampato s s') (h' : Stampato s' s'') : Stampato s s'' := by
  obtain ⟨xs, hxs, hin⟩ := h.chiamate
  obtain ⟨ys, hys, hin'⟩ := h'.chiamate
  refine
    { crtc := h'.crtc.trans h.crtc
      start := h'.start.trans h.start
      currentPage := h'.currentPage.trans h.currentPage
      logRow := h'.logRow.trans h.logRow
      chiamate := ⟨xs ++ ys, by rw [hys, hxs, List.append_assoc], ?_⟩
      mem := ?_ }
  · intro x hx
    rcases List.mem_append.mp hx with hx | hx
    · exact hin x hx
    · exact hin' x hx
  · intro a ha
    by_cases hmid : s'.mem a = s.mem a
    · rw [← h.start]
      apply h'.mem a
      rwa [hmid]
    · exact h.mem a hmid

/-- A move of the cursor alone. -/
theorem Stampato.cursore (s : Schermo) (row col : Int) :
    Stampato s { s with lastRow := row, lastCol := col } :=
  ⟨rfl, rfl, rfl, rfl, ⟨[], by simp, by simp⟩, fun _ h => absurd rfl h⟩

/-- A character inside the page. -/
theorem Stampato.videoChar {c r : Int} {cc : BitVec 8} (h : Dentro (c, r, cc)) :
    Stampato s (s.videoChar c r cc) := by
  refine ⟨rfl, rfl, rfl, rfl, ⟨[(c, r, cc)], rfl, ?_⟩, ?_⟩
  · intro x hx
    obtain rfl := List.mem_singleton.mp hx
    exact h
  · intro a ha
    obtain ⟨h1, h2, h3, h4⟩ := h
    have hrows : VIDEOROWS = 25 := rfl
    dsimp only at h1 h2 h3 h4
    by_cases he : a = s.start + 160 * r + 2 * c
    · omega
    · exact absurd (Function.update_of_ne he _ _) ha

variable {k : Nat} {c : BitVec 8}

/-- The cursor is brought back into the page and a character written there. -/
theorem Cursore.scrive (h : Cursore k s) (hk : k < 2 ^ 30) (hc : c ≠ 10 ∧ c ≠ 13 ∧ c ≠ 8 ∧ c ≠ 9) :
    ∃ row col, Dentro (col, row, c) ∧ s.stampa c =
      { ({ s with lastRow := row, lastCol := col } : Schermo).videoChar col row c with
        lastCol := int32 (col + 1) } := by
  obtain ⟨h10, h13, h8, h9⟩ := hc
  have hcol := h.col
  have hrow := h.row
  have hrows : VIDEOROWS = 25 := rfl
  unfold Schermo.stampa
  rw [if_neg h10, if_neg h13, if_neg h8, if_neg h9]
  have hzero : (0 : Int) < 80 := by decide
  have htop : (0 : Int) < VIDEOROWS := by decide
  by_cases hend : s.lastCol ≥ 80
  · have hnext : int32 (s.lastRow + 1) = s.lastRow + 1 := int32_piccolo (by omega) (by omega)
    rw [if_pos hend, hnext]
    by_cases hbottom : s.lastRow + 1 ≥ VIDEOROWS
    · refine ⟨0, 0, ⟨le_rfl, hzero, le_rfl, htop⟩, ?_⟩
      simp only [if_pos hbottom]
      rfl
    · refine ⟨s.lastRow + 1, 0, ⟨le_rfl, hzero, ?_, Int.not_le.mp hbottom⟩, ?_⟩
      · dsimp only
        omega
      · simp only [if_neg hbottom]
        rfl
  · rw [if_neg hend]
    by_cases hbottom : s.lastRow ≥ VIDEOROWS
    · refine ⟨0, s.lastCol, ⟨hcol.1, Int.not_le.mp hend, le_rfl, htop⟩, ?_⟩
      simp only [if_pos hbottom]
      rfl
    · refine ⟨s.lastRow, s.lastCol,
        ⟨hcol.1, Int.not_le.mp hend, hrow.1, Int.not_le.mp hbottom⟩, ?_⟩
      simp only [if_neg hbottom]
      rfl

/-- The keys that only move the cursor. -/
theorem Cursore.muove (h : Cursore k s) (hk : k < 2 ^ 30) (hc : c = 10 ∨ c = 13 ∨ c = 8 ∨ c = 9) :
    ∃ row col, s.stampa c = { s with lastRow := row, lastCol := col } ∧
      0 ≤ col ∧ col ≤ 80 ∧ 0 ≤ row ∧ row ≤ s.lastRow + if c = 10 then 1 else 0 := by
  have hcol := h.col
  have hrow := h.row
  unfold Schermo.stampa
  rcases hc with rfl | rfl | rfl | rfl
  · have hnext : int32 (s.lastRow + 1) = s.lastRow + 1 := int32_piccolo (by omega) (by omega)
    exact ⟨s.lastRow + 1, 0, by rw [if_pos rfl, hnext], le_rfl, by decide, by omega, le_rfl⟩
  · exact ⟨s.lastRow, 0, rfl, le_rfl, by decide, hrow.1, by simp⟩
  · rw [if_neg (by decide), if_neg (by decide), if_pos rfl]
    by_cases hleft : s.lastCol ≠ 0
    · have hback : int32 (s.lastCol - 1) = s.lastCol - 1 := int32_piccolo (by omega) (by omega)
      rw [if_pos hleft, hback]
      exact ⟨s.lastRow, s.lastCol - 1, rfl, by omega, by omega, hrow.1, by simp⟩
    · rw [if_neg hleft]
      by_cases htop : s.lastRow ≠ 0
      · have hback : int32 (s.lastRow - 1) = s.lastRow - 1 := int32_piccolo (by omega) (by omega)
        rw [if_pos htop, hback]
        exact ⟨s.lastRow - 1, s.lastCol, rfl, hcol.1, hcol.2, by omega, by
          rw [if_neg (by decide)]
          omega⟩
      · rw [if_neg htop]
        exact ⟨s.lastRow, s.lastCol, rfl, hcol.1, hcol.2, hrow.1, by simp⟩
  · rw [if_neg (by decide), if_neg (by decide), if_neg (by decide), if_pos rfl]
    have hnext : int32 (s.lastCol + 8) = s.lastCol + 8 := int32_piccolo (by omega) (by omega)
    dsimp only
    rw [hnext]
    by_cases hend : s.lastCol + 8 ≥ 80
    · have hback : int32 (s.lastCol + 8 - 80) = s.lastCol + 8 - 80 :=
        int32_piccolo (by omega) (by omega)
      rw [if_pos hend, hback]
      exact ⟨s.lastRow, s.lastCol + 8 - 80, rfl, by omega, by omega, hrow.1, by simp⟩
    · rw [if_neg hend]
      exact ⟨s.lastRow, s.lastCol + 8, rfl, by omega, by omega, hrow.1, by simp⟩

theorem Cursore.stampa (h : Cursore k s) (hk : k < 2 ^ 30) (c : BitVec 8) :
    Cursore (k + if c = 10 then 1 else 0) (s.stampa c) ∧ Stampato s (s.stampa c) := by
  have hcol := h.col
  have hrow := h.row
  by_cases hc : c = 10 ∨ c = 13 ∨ c = 8 ∨ c = 9
  · obtain ⟨row, col, hstampa, h1, h2, h3, h4⟩ := h.muove hk hc
    rw [hstampa]
    refine ⟨⟨⟨h1, h2⟩, h3, ?_⟩, Stampato.cursore s row col⟩
    dsimp only
    split at h4
    · rename_i h10
      rw [if_pos h10]
      omega
    · rename_i h10
      rw [if_neg h10]
      omega
  · push Not at hc
    obtain ⟨row, col, hin, hstampa⟩ := h.scrive hk hc
    have hrows : VIDEOROWS = 25 := rfl
    obtain ⟨h1, h2, h3, h4⟩ := id hin
    dsimp only at h1 h2 h3 h4
    have hnext : int32 (col + 1) = col + 1 := int32_piccolo (by omega) (by omega)
    rw [hstampa, hnext, if_neg hc.1]
    constructor
    · refine ⟨⟨?_, ?_⟩, h3, ?_⟩
      · dsimp only
        omega
      · dsimp only
        omega
      · have hle : row ≤ 25 + (k : Int) := by omega
        exact hle
    · apply (Stampato.cursore s row col).trans
      apply (Stampato.videoChar hin).trans
      exact Stampato.cursore _ row (col + 1)

/-! ## Strings and calls -/

/-- The characters before the end of a string. -/
def testo (buf : List (BitVec 8)) : List (BitVec 8) := buf.takeWhile fun c => c ≠ 0

theorem Cursore.stampaTesto {buf : List (BitVec 8)} (h : Cursore k s)
    (hk : k + (testo buf).count 10 < 2 ^ 30) :
    Cursore (k + (testo buf).count 10) (s.stampaTesto buf) ∧ Stampato s (s.stampaTesto buf) := by
  induction buf generalizing s k with
  | nil => exact ⟨h, Stampato.refl s⟩
  | cons c buf ih =>
    rw [Schermo.stampaTesto]
    by_cases hend : c = 0
    · subst hend
      rw [if_pos rfl]
      exact ⟨h, Stampato.refl s⟩
    · have htesto : testo (c :: buf) = c :: testo buf :=
        List.takeWhile_cons_of_pos (by simpa using hend)
      have hcount : k + (testo (c :: buf)).count 10 =
          k + (if c = 10 then 1 else 0) + (testo buf).count 10 := by
        rw [htesto, List.count_cons]
        simp only [beq_iff_eq]
        omega
      rw [hcount] at hk ⊢
      obtain ⟨hcur, hstep⟩ := h.stampa (by omega) c
      obtain ⟨hcur', hrest⟩ := ih hcur hk
      rw [if_neg hend]
      exact ⟨hcur', hstep.trans hrest⟩

/-- What a call changes when it does not go to the log. -/
structure Chiamato (s s' : Schermo) (page : Int) : Prop where
  alto : s'.crtc.alto = s.crtc.alto
  basso : s'.crtc.basso = s.crtc.basso
  currentPage : s'.currentPage = s.currentPage
  chiamate : ∃ nuove, s'.chiamate = s.chiamate ++ nuove ∧ ∀ x ∈ nuove, Dentro x
  mem : ∀ a, s'.mem a ≠ s.mem a →
    inizio (scelta s page) ≤ a ∧ a + 2 ≤ inizio (scelta s page) + 4096

theorem Cursore.kiPrint {buf : List (BitVec 8)} (h : Cursore k s) (hs : Coerente s) (hp : page ≠ 2)
    (hk : k + (testo buf).count 10 < 2 ^ 30) :
    Cursore (k + (testo buf).count 10) (s.kiPrint buf page) ∧ Coerente (s.kiPrint buf page) ∧
      Chiamato s (s.kiPrint buf page) page := by
  obtain ⟨s₁, hs₁⟩ : ∃ s₁, s₁ = (s.videoSetpage page).2 := ⟨_, rfl⟩
  have hstart : s₁.start = inizio (scelta s page) := by
    rw [hs₁, scelta]
    by_cases hin : page < 0 ∨ page > 7
    · rw [videoSetpage_invalida s hin, if_pos hin]
      exact hs.start
    · rw [videoSetpage_valida s (by omega), if_neg hin]
      rfl
  have hkeep : s₁.mem = s.mem ∧ s₁.chiamate = s.chiamate ∧ Cursore k s₁ := by
    rw [hs₁]
    by_cases hin : page < 0 ∨ page > 7
    · rw [videoSetpage_invalida s hin]
      exact ⟨rfl, rfl, h⟩
    · rw [videoSetpage_valida s (by omega)]
      exact ⟨rfl, rfl, h.col, h.row⟩
  obtain ⟨hmem, hcalls, hcur⟩ := hkeep
  obtain ⟨hcur', hprint⟩ := hcur.stampaTesto hk
  have hcall : s.kiPrint buf page = mostra (s₁.stampaTesto buf) s.currentPage := by
    rw [Schermo.kiPrint, if_neg hp, hs₁]
    have hback := videoSetpage_valida ((s.videoSetpage page).2.stampaTesto buf) hs.pagina
    rw [← hback, ← videoSetpage_fst s page]
  rw [hcall]
  refine ⟨⟨hcur'.col, hcur'.row⟩, ⟨hs.pagina, rfl, rfl, rfl⟩, ?_⟩
  refine
    { alto := hs.alto.symm
      basso := hs.basso.symm
      currentPage := rfl
      chiamate := hcalls ▸ hprint.chiamate
      mem := ?_ }
  intro a ha
  rw [← hstart]
  apply hprint.mem a
  rwa [hmem]

def stampe (s : Schermo) (xs : List (List (BitVec 8) × Int)) : Schermo :=
  xs.foldl (fun s x => s.kiPrint x.1 x.2) s

/-- The newlines that are printed. -/
def newline (xs : List (List (BitVec 8) × Int)) : Nat := (xs.map fun x => (testo x.1).count 10).sum

theorem newline_append (xs ys : List (List (BitVec 8) × Int)) :
    newline (xs ++ ys) = newline xs + newline ys := by
  unfold newline
  rw [List.map_append, List.sum_append]

theorem Cursore.stampe {pre : List (List (BitVec 8) × Int)} (h : Cursore 0 s) (hs : Coerente s)
    (hp : ∀ x ∈ pre, x.2 ≠ 2) (hk : newline pre < 2 ^ 30) :
    Cursore (newline pre) (stampe s pre) ∧ Coerente (stampe s pre) := by
  induction pre using List.reverseRecOn with
  | nil => exact ⟨h, hs⟩
  | append_singleton pre x ih =>
    have hone : newline [x] = (testo x.1).count 10 := by
      unfold newline
      simp
    rw [newline_append, hone] at hk ⊢
    obtain ⟨hcur, hpage⟩ := ih (fun y hy => hp y (List.mem_append_left _ hy)) (by omega)
    obtain ⟨hcur', hpage', _⟩ := hcur.kiPrint hpage (hp x (by simp)) hk
    rw [Video.stampe, List.foldl_append]
    exact ⟨hcur', hpage'⟩

/-- In every sequence of calls that do not go to the log every call of `video_char` is for a cell of
the page, nothing outside the 4096 bytes of the page selected changes, and the page on show
stays. -/
theorem console_nella_pagina (s : Schermo) (xs : List (List (BitVec 8) × Int)) (hs : Coerente s)
    (hrow : s.lastRow = 1) (hcol : s.lastCol = 0) (hp : ∀ x ∈ xs, x.2 ≠ 2)
    (hk : newline xs < 2 ^ 30) :
    ∀ pre x, pre ++ [x] <+: xs →
      Chiamato (stampe s pre) ((stampe s pre).kiPrint x.1 x.2) x.2 := by
  rintro pre x ⟨post, rfl⟩
  have hone : newline [x] = (testo x.1).count 10 := by
    unfold newline
    simp
  rw [newline_append, newline_append, hone] at hk
  have hstart : Cursore 0 s := ⟨by omega, by omega⟩
  obtain ⟨hcur, hpage⟩ := hstart.stampe hs
    (fun y hy => hp y (List.mem_append_left _ (List.mem_append_left _ hy))) (by omega)
  have hx : x.2 ≠ 2 := hp x (by simp)
  exact (hcur.kiPrint hpage hx (by omega)).2.2

/-- The screen as the BIOS leaves it, with the initial values of the variables. -/
def acceso : Schermo :=
  { mem := fun _ => vuota, crtc := ⟨0, 0, 0⟩, start := VIDEOMEM, currentPage := 0, logRow := 0,
    lastRow := 1, lastCol := 0, chiamate := [] }

theorem coerente_acceso : Coerente acceso := ⟨⟨le_rfl, by decide⟩, rfl, rfl, rfl⟩

/-- After a newline and a tab, on a page that does not exist. -/
theorem console_nella_pagina_acceso : Chiamato (stampe acceso [([72, 10, 73], 0)])
    ((stampe acceso [([72, 10, 73], 0)]).kiPrint [9, 74] 9) 9 :=
  console_nella_pagina acceso [([72, 10, 73], 0), ([9, 74], 9)] coerente_acceso rfl rfl (by decide)
    (by decide) [([72, 10, 73], 0)] ([9, 74], 9) (List.prefix_refl _)

end Video

end Pitos
