import Mathlib.Data.List.TakeWhile
import Pitos.Lib.SlotRing
import Pitos.Properties.Console

/-!
# The log page

A message goes to the row `logRow` of the log page, from column 1 on. `videocpy` knows of no right
edge: a line of more than 79 characters goes on in the rows that follow. As long as every line
fits, the rows of the page are a ring of 25 slots that takes the messages one after the other
(`Registro.anello`).
-/

namespace Pitos

open Lib

namespace Video

open Schermo

/-! ## Erasing and copying -/

variable {m : Int → BitVec 16} {p a : Int} {n k : Nat} {sz : List (BitVec 8)}

theorem cancella_fuori (h : ∀ k : Nat, k < n → a ≠ p + 2 * k) : cancella m p n a = m a := by
  induction n generalizing m p with
  | zero => rfl
  | succ n ih =>
    have hfirst : a ≠ p := by simpa using h 0 (by omega)
    rw [cancella, ih]
    · exact Function.update_of_ne hfirst _ _
    · intro k hk
      have hnext := h (k + 1) (by omega)
      push_cast at hnext
      omega

theorem cancella_dentro (h : k < n) : cancella m p n (p + 2 * k) = vuota := by
  induction n generalizing m p k with
  | zero => exact absurd h (Nat.not_lt_zero k)
  | succ n ih =>
    rw [cancella]
    cases k with
    | zero =>
      rw [cancella_fuori (fun k _ => by omega)]
      simp
    | succ k =>
      have hmove : p + 2 * ((k + 1 : Nat) : Int) = p + 2 + 2 * (k : Int) := by
        omega
      rw [hmove]
      exact ih (by omega)

/-- What `videocpy` writes of a string. -/
def linea (sz : List (BitVec 8)) : List (BitVec 8) := sz.takeWhile fun c => c ≠ 0 ∧ c ≠ 10

theorem linea_cons {c : BitVec 8} (h : c ≠ 0) (h' : c ≠ 10) : linea (c :: sz) = c :: linea sz :=
  List.takeWhile_cons_of_pos (decide_eq_true ⟨h, h'⟩)

theorem copia_fuori (h : ∀ k : Nat, k < (linea sz).length → a ≠ p + 2 * k) :
    copia m p sz a = m a := by
  induction sz generalizing m p with
  | nil => rfl
  | cons c sz ih =>
    rw [copia]
    by_cases h0 : c = 0
    · rw [if_pos h0]
    by_cases h10 : c = 10
    · rw [if_neg h0, if_pos h10]
    rw [linea_cons h0 h10] at h
    have hfirst : a ≠ p := by simpa using h 0 (by simp)
    rw [if_neg h0, if_neg h10, ih]
    · exact Function.update_of_ne hfirst _ _
    · intro k hk
      have hnext := h (k + 1) (by simpa using hk)
      push_cast at hnext
      omega

theorem copia_dentro {c : BitVec 8} (h : (linea sz)[k]? = some c) :
    copia m p sz (p + 2 * k) = cella c := by
  induction sz generalizing m p k with
  | nil => cases h
  | cons d sz ih =>
    rw [copia]
    by_cases h0 : d = 0
    · rw [h0] at h
      cases h
    by_cases h10 : d = 10
    · rw [h10] at h
      cases h
    rw [linea_cons h0 h10] at h
    rw [if_neg h0, if_neg h10]
    cases k with
    | zero =>
      obtain rfl : d = c := Option.some.inj h
      rw [copia_fuori (fun k _ => by omega)]
      simp
    | succ k =>
      have hmove : p + 2 * ((k + 1 : Nat) : Int) = p + 2 + 2 * (k : Int) := by
        omega
      rw [hmove]
      exact ih h

/-! ## One message -/

/-- The row that a message that fits makes. -/
def immagine (sz : List (BitVec 8)) (j : Nat) : BitVec 16 :=
  if j = 0 then vuota else ((linea sz)[j - 1]?.map cella).getD vuota

/-- The address of a cell of the log page. -/
def posto (r : Int) (j : Nat) : Int := inizio paginaLog + 160 * r + 2 * j

/-- What a message leaves in the memory. -/
def scritta (s : Schermo) (sz : List (BitVec 8)) : Int → BitVec 16 :=
  copia (cancella s.mem (posto s.logRow 0) 80) (posto s.logRow 1) sz

variable {s : Schermo}

/-- The page on show stays, the row advances, and the memory is as written. -/
theorem logMessage_eq (hs : Coerente s) (hr : 0 ≤ s.logRow ∧ s.logRow < 25) (sz : List (BitVec 8)) :
    s.logMessage sz = mostra { s with mem := scritta s sz, logRow := (s.logRow + 1) % 25 }
      s.currentPage := by
  have hset : s.videoSetpage paginaLog = (s.currentPage, mostra s paginaLog) :=
    Prod.ext (videoSetpage_fst s paginaLog) (videoSetpage_valida s (by decide))
  have hnext : int32 (s.logRow + 1) = s.logRow + 1 := int32_piccolo (by omega) (by omega)
  have hfirst : inizio paginaLog + 160 * s.logRow = posto s.logRow 0 := by
    unfold posto
    omega
  have hsecond : posto s.logRow 0 + 2 * 1 = posto s.logRow 1 := by
    unfold posto
    omega
  unfold logMessage
  rw [hset]
  dsimp only [videoEraseline, videocpy, mostra]
  rw [hfirst, hsecond, hnext]
  by_cases hlast : s.logRow + 1 ≥ VIDEOROWS
  · have hwrap : (s.logRow + 1) % 25 = 0 := by
      have hrows : VIDEOROWS = 25 := rfl
      omega
    rw [if_pos hlast, videoSetpage_valida _ hs.pagina, hwrap]
    rfl
  · have hstay : (s.logRow + 1) % 25 = s.logRow + 1 := by
      have hrows : VIDEOROWS = 25 := rfl
      omega
    rw [if_neg hlast, videoSetpage_valida _ hs.pagina, hstay]
    rfl

/-- The row shows the message, and blanks where it has no characters. -/
theorem scritta_riga (s : Schermo) (sz : List (BitVec 8)) {j : Nat} (hj : j < 80) :
    scritta s sz (posto s.logRow j) = immagine sz j := by
  have herase : cancella s.mem (posto s.logRow 0) 80 (posto s.logRow j) = vuota := by
    have hcell : posto s.logRow j = posto s.logRow 0 + 2 * (j : Int) := by
      unfold posto
      omega
    rw [hcell]
    exact cancella_dentro hj
  cases j with
  | zero =>
    rw [scritta, copia_fuori, herase]
    · rfl
    · intro k _
      unfold posto
      omega
  | succ i =>
    have hcell : posto s.logRow (i + 1) = posto s.logRow 1 + 2 * (i : Int) := by
      unfold posto
      omega
    rw [immagine, if_neg (Nat.succ_ne_zero i), Nat.add_sub_cancel]
    cases hc : (linea sz)[i]? with
    | none =>
      have hlen := List.getElem?_eq_none_iff.mp hc
      rw [scritta, copia_fuori, herase]
      · rfl
      · intro k hk
        rw [hcell]
        omega
    | some c =>
      rw [scritta, hcell, copia_dentro hc]
      rfl

/-- A line that fits changes no cell outside its row. -/
theorem scritta_altrove (h : (linea sz).length ≤ 79) (ha : ∀ j < 80, a ≠ posto s.logRow j) :
    scritta s sz a = s.mem a := by
  have hcopy : ∀ k : Nat, k < (linea sz).length → a ≠ posto s.logRow 1 + 2 * k := by
    intro k hk
    have hcell := ha (k + 1) (by omega)
    unfold posto at hcell ⊢
    omega
  have herase : ∀ k : Nat, k < 80 → a ≠ posto s.logRow 0 + 2 * k := by
    intro k hk
    have hcell := ha k hk
    unfold posto at hcell ⊢
    omega
  rw [scritta, copia_fuori hcopy, cancella_fuori herase]

theorem cella_ne_vuota : ∀ c : BitVec 8, c ≠ 0 → cella c ≠ vuota := by decide

/-- A longer one writes into the row that follows. -/
theorem scritta_oltre (h : 79 < (linea sz).length) :
    scritta s sz (posto (s.logRow + 1) 0) ≠ vuota := by
  have hc := List.getElem?_eq_getElem h
  have hmem := List.mem_takeWhile_imp (List.getElem_mem h)
  have hcell : posto (s.logRow + 1) 0 = posto s.logRow 1 + 2 * ((79 : Nat) : Int) := by
    unfold posto
    omega
  rw [scritta, hcell, copia_dentro hc]
  exact cella_ne_vuota _ (of_decide_eq_true hmem).1

/-! ## Sequences of messages -/

/-- A message of the kernel, or a string that `ki_print` sends to the log. -/
inductive Voce
  | messaggio (sz : List (BitVec 8))
  | stampa (buf : List (BitVec 8))

def Voce.testo : Voce → List (BitVec 8)
  | messaggio sz => sz
  | stampa buf => buf

def annota (s : Schermo) : Voce → Schermo
  | .messaggio sz => s.logMessage sz
  | .stampa buf => s.kiPrint buf 2

def annotate (s : Schermo) (vs : List Voce) : Schermo := vs.foldl annota s

variable {v : Voce} {vs pre : List Voce}

theorem annota_eq (s : Schermo) (v : Voce) : annota s v = s.logMessage v.testo := by
  cases v with
  | messaggio sz => rfl
  | stampa buf => rfl

theorem annotate_append (s : Schermo) (pre : List Voce) (v : Voce) :
    annotate s (pre ++ [v]) = annota (annotate s pre) v := by
  rw [annotate, List.foldl_append]
  rfl

/-- The pages agree and the next row is one of the page. -/
structure Pronto (s : Schermo) : Prop where
  coerente : Coerente s
  riga : 0 ≤ s.logRow ∧ s.logRow < 25

theorem Pronto.annota (h : Pronto s) (v : Voce) : Pronto (Video.annota s v) := by
  rw [annota_eq, logMessage_eq h.coerente h.riga]
  refine ⟨⟨h.coerente.pagina, rfl, rfl, rfl⟩, ?_⟩
  have hrow : 0 ≤ (s.logRow + 1) % 25 ∧ (s.logRow + 1) % 25 < 25 := by omega
  exact hrow

theorem Pronto.annotate (h : Pronto s) (vs : List Voce) : Pronto (Video.annotate s vs) := by
  induction vs using List.reverseRecOn with
  | nil => exact h
  | append_singleton vs v ih =>
    rw [annotate_append]
    exact ih.annota v

/-- A row of the log page, as a function of the column. -/
def riga (s : Schermo) (r : Nat) (j : Fin 80) : BitVec 16 := s.mem (posto r j)

/-- The rows as a ring. -/
def anello (s : Schermo) : SlotRing (Fin 80 → BitVec 16) :=
  { next := s.logRow.toNat, slots := riga s }

/-- A message that fits is put into the ring. -/
theorem Pronto.anello_annota (h : Pronto s) (hv : (linea v.testo).length ≤ 79) :
    anello (Video.annota s v) = SlotRing.put 25 (anello s) fun j => immagine v.testo j := by
  have hrow := h.riga
  have hnext : ((s.logRow + 1) % 25).toNat = (s.logRow.toNat + 1) % 25 := by omega
  have hrows : Video.riga (Video.annota s v) =
      Function.update (Video.riga s) s.logRow.toNat fun j => immagine v.testo j := by
    funext r j
    rw [Video.riga, annota_eq, logMessage_eq h.coerente h.riga]
    by_cases hr : r = s.logRow.toNat
    · have hcell : posto r j = posto s.logRow j := by
        rw [hr, Int.toNat_of_nonneg hrow.1]
      rw [hr, Function.update_self, ← hr, hcell]
      exact scritta_riga s v.testo j.isLt
    · rw [Function.update_of_ne hr]
      apply scritta_altrove hv
      intro k hk
      have hj := j.isLt
      unfold posto
      omega
  have hlog : (Video.annota s v).logRow.toNat = (s.logRow.toNat + 1) % 25 := by
    rw [annota_eq, logMessage_eq h.coerente h.riga]
    exact hnext
  rw [anello, hrows, hlog]
  rfl

theorem Pronto.anello_annotate (h : Pronto s) (hvs : ∀ v ∈ vs, (linea v.testo).length ≤ 79) :
    anello (Video.annotate s vs) =
      SlotRing.putAll 25 (anello s) (vs.map fun v j => immagine v.testo j) := by
  induction vs using List.reverseRecOn with
  | nil => rfl
  | append_singleton vs v ih =>
    have hrest := ih fun w hw => hvs w (List.mem_append_left _ hw)
    rw [annotate_append, (h.annotate vs).anello_annota (hvs v (by simp)), hrest, List.map_append]
    exact (SlotRing.putAll_append _ _ _).symm

/-- What one call changes: cells of the row `logRow`. -/
structure Registrata (s s' : Schermo) : Prop where
  mem : ∀ a, s'.mem a ≠ s.mem a → ∃ j < 80, a = posto s.logRow j
  alto : s'.crtc.alto = s.crtc.alto
  basso : s'.crtc.basso = s.crtc.basso
  currentPage : s'.currentPage = s.currentPage

theorem Pronto.registrata (h : Pronto s) (hv : (linea v.testo).length ≤ 79) :
    Registrata s (Video.annota s v) := by
  rw [annota_eq, logMessage_eq h.coerente h.riga]
  refine ⟨?_, h.coerente.alto.symm, h.coerente.basso.symm, rfl⟩
  intro a ha
  by_contra hno
  push Not at hno
  exact ha (scritta_altrove hv hno)

/-- After each call of the sequence only its row has changed, and the rows show the last 25
messages. -/
def Registro (s : Schermo) (vs : List Voce) : Prop :=
  ∀ pre v, pre ++ [v] <+: vs → Registrata (annotate s pre) (annotate s (pre ++ [v])) ∧
    ∀ i w, (pre ++ [v])[i]? = some w → (pre ++ [v]).length ≤ i + 25 → ∀ j : Fin 80,
      riga (annotate s (pre ++ [v])) ((s.logRow.toNat + i) % 25) j = immagine w.testo j

theorem Pronto.registro (h : Pronto s) (hvs : ∀ v ∈ vs, (linea v.testo).length ≤ 79) :
    Registro s vs := by
  intro pre v hpre
  have hin : ∀ w ∈ pre ++ [v], (linea w.testo).length ≤ 79 := fun w hw => hvs w (hpre.subset hw)
  constructor
  · rw [annotate_append]
    exact (h.annotate pre).registrata (hin v (by simp))
  · intro i w hw hi j
    have hrow := h.riga
    have hring := h.anello_annotate hin
    have himage : ((pre ++ [v]).map fun v (j : Fin 80) => immagine v.testo j)[i]? =
        some fun j : Fin 80 => immagine w.testo j := by
      rw [List.getElem?_map, hw]
      rfl
    have hnext : (anello s).next < 25 := by
      have hlt : s.logRow.toNat < 25 := by omega
      exact hlt
    have hslot := SlotRing.slots_putAll hnext himage (by rwa [List.length_map])
    rw [← hring] at hslot
    exact congrFun hslot j

/-- The first cells of the rows stay blank as long as the messages fit. -/
theorem Pronto.colonna (h : Pronto s) (hs : ∀ r, s.mem (posto r 0) = vuota)
    (hvs : ∀ v ∈ vs, (linea v.testo).length ≤ 79) (r : Int) :
    (Video.annotate s vs).mem (posto r 0) = vuota := by
  induction vs using List.reverseRecOn with
  | nil => exact hs r
  | append_singleton vs v ih =>
    have hprev := ih fun w hw => hvs w (List.mem_append_left _ hw)
    have hready := h.annotate vs
    by_cases hrow : r = (Video.annotate s vs).logRow
    · rw [annotate_append, annota_eq, logMessage_eq hready.coerente hready.riga, hrow]
      exact scritta_riga _ _ (by decide)
    · rw [← hprev, annotate_append]
      by_contra hne
      obtain ⟨j, hj, hcell⟩ := (hready.registrata (hvs v (by simp))).mem _ hne
      unfold posto at hcell
      omega

/-- The log is a ring of lines, whatever the screen shows at first, if and only if every message has
at most 79 characters before its end or its first newline. -/
theorem log_anello (s : Schermo) (h : Pronto s) (vs : List Voce) :
    (∀ mem, Registro { s with mem := mem } vs) ↔ ∀ v ∈ vs, (linea v.testo).length ≤ 79 := by
  constructor
  · intro hlog
    obtain ⟨t, ht⟩ : ∃ t : Schermo, t = { s with mem := fun _ => vuota } := ⟨_, rfl⟩
    have hready : Pronto t := by
      rw [ht]
      exact ⟨⟨h.coerente.pagina, h.coerente.start, h.coerente.alto, h.coerente.basso⟩, h.riga⟩
    have hblank : ∀ r, t.mem (posto r 0) = vuota := by
      rw [ht]
      exact fun _ => rfl
    have hreg : Registro t vs := by
      rw [ht]
      exact hlog _
    have hprefix : ∀ pre, pre <+: vs → ∀ v ∈ pre, (linea v.testo).length ≤ 79 := by
      intro pre hpre
      induction pre using List.reverseRecOn with
      | nil => exact fun v hv => absurd hv List.not_mem_nil
      | append_singleton pre v ih =>
        have hbefore := ih ((List.prefix_append _ _).trans hpre)
        intro w hw
        rcases List.mem_append.mp hw with hw | hw
        · exact hbefore w hw
        obtain rfl := List.mem_singleton.mp hw
        by_contra hlong
        -- the 80th character is in the first cell of the next row, which was blank
        have hcol := hready.colonna hblank hbefore ((annotate t pre).logRow + 1)
        have hstate := hready.annotate pre
        have hover : (annotate t (pre ++ [w])).mem (posto ((annotate t pre).logRow + 1) 0) ≠
            (annotate t pre).mem (posto ((annotate t pre).logRow + 1) 0) := by
          rw [hcol, annotate_append, annota_eq, logMessage_eq hstate.coerente hstate.riga]
          exact scritta_oltre (by omega)
        obtain ⟨j, hj, hcell⟩ := (hreg pre w hpre).1.mem _ hover
        unfold posto at hcell
        omega
    exact hprefix vs (List.prefix_refl vs)
  · intro hvs mem
    have hready : Pronto { s with mem := mem } :=
      ⟨⟨h.coerente.pagina, h.coerente.start, h.coerente.alto, h.coerente.basso⟩, h.riga⟩
    exact hready.registro hvs

/-- Eighty characters reach the row that follows. -/
theorem log_trabocca :
    ¬ Registrata acceso (annota acceso (.messaggio (List.replicate 80 65))) := by
  intro h
  have hcell : (annota acceso (.messaggio (List.replicate 80 65))).mem (posto 1 0) ≠
      acceso.mem (posto 1 0) := by
    decide +kernel
  obtain ⟨j, hj, hrow⟩ := h.mem _ hcell
  have hzero : acceso.logRow = 0 := rfl
  rw [hzero] at hrow
  unfold posto at hrow
  omega

theorem log_anello_acceso : Registro acceso [.messaggio [72, 73], .stampa [74, 10, 75]] :=
  (log_anello acceso ⟨coerente_acceso, by decide⟩ [.messaggio [72, 73], .stampa [74, 10, 75]]).mpr
    (by decide) _

end Video

end Pitos
