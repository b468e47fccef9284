import Pitos.Kernel.Keyboard
import Pitos.Kernel.Places
import Pitos.Lib.Run

/-!
# Every release once

A call clears `kb_changed` before it reads `kb_last`, and reads it twice. A scan code that comes
after the clearing is returned and leaves `kb_changed` set, so that the next call returns it again
unless another one comes first; one that comes between the two reads is returned without having
been tested. `rilasci` says that nothing else goes wrong.
-/

namespace Pitos

open Lib

namespace Tastiera

/-- The top bit of a scan code. -/
def Rilascio (c : BitVec 8) : Prop := c &&& 0x80 = 0x80

instance (c : BitVec 8) : Decidable (Rilascio c) := inferInstanceAs (Decidable (_ = _))

theorem rilascio_iff : ∀ c : BitVec 8, c.setWidth 32 &&& (0x80 : Word) = 0x80 ↔ Rilascio c := by
  decide

/-- The returns are those of different releases, in the order in which these came. -/
structure Rilasci (s : Attesa) : Prop where
  ordine : (s.resi.map Prod.fst).Pairwise (· < ·)
  evento : ∀ r ∈ s.resi, 1 ≤ r.1 ∧ ∃ c, s.arrivati[r.1 - 1]? = some c ∧ Rilascio c ∧
    r.2 = c.setWidth 32 &&& 0x7F

/-- Before the first key. -/
def inizio (k : Kernel) : Attesa :=
  { kernel := k, punto := .fuori, arrivati := [], resi := [] }

/-- Beside the state: the last call returned with `kb_changed` set again, and nothing has come
since. -/
def replica (x : Attesa × Bool) : Evento → Bool
  | .tasto _ => false
  | .chiama => x.2
  | .avanza =>
    if x.1.punto = .restituisce then decide (x.1.kernel.kbChanged = 1) else x.2

def Passo (x : Attesa × Bool) (e : Evento) (y : Attesa × Bool) : Prop :=
  esegui x.1 e = some y.1 ∧ y.2 = replica x e

/-- A return that is not a second one, of a code that is a release. -/
def Innocuo (x : Attesa × Bool) (e : Evento) : Prop :=
  e = .avanza → x.1.punto = .restituisce → x.2 = false ∧ x.1.ultimo &&& 0x80 = 0x80

/-- Nothing is there to be returned. -/
def Quieto (s : Attesa) : Prop :=
  s.kernel.kbChanged ≠ 1 ∧ (s.punto = .fuori ∨ s.punto = .prova)

/-- What holds between two steps: `replica` knows whether the last code has been returned. -/
structure Annotato (x : Attesa × Bool) : Prop where
  resi : ∀ n ∈ x.1.resi.map Prod.fst, n ≤ x.1.arrivati.length
  ultimo : ∀ c, x.1.arrivati.getLast? = some c → x.1.ultimo = c.setWidth 32
  replica : x.2 = true → x.1.arrivati.length ∈ x.1.resi.map Prod.fst
  nuovo : x.1.arrivati.length ∈ x.1.resi.map Prod.fst → x.2 = true ∨ Quieto x.1
  vuoto : x.1.arrivati = [] → Quieto x.1

variable {x y : Attesa × Bool} {e : Evento}

theorem annotato_inizio {k : Kernel} (hk : k.kbChanged = 0) : Annotato (inizio k, false) := by
  have hq : Quieto (inizio k) := by
    refine ⟨?_, Or.inl rfl⟩
    rw [inizio, hk]
    decide
  exact
    { resi := fun _ h => absurd h List.not_mem_nil
      ultimo := fun _ h => by cases h
      replica := fun h => by cases h
      nuovo := fun h => absurd h List.not_mem_nil
      vuoto := fun _ => hq }

/-- A call that has passed the test. -/
theorem occupato {s : Attesa} (hfuori : s.punto ≠ .fuori) (hprova : s.punto ≠ .prova) :
    ¬ Quieto s := by
  rintro ⟨_, hq⟩
  exact hq.elim hfuori hprova

theorem passo_unico {z : Attesa × Bool} (h : Passo x e y) (h' : Passo x e z) : y = z := by
  obtain ⟨h1, h2⟩ := h
  obtain ⟨h3, h4⟩ := h'
  exact Prod.ext (Option.some.inj (h1.symm.trans h3)) (h2.trans h4.symm)

/-! ## A key -/

theorem loggingKbCallback_kb (code : BitVec 8) (k : Kernel) :
    (loggingKbCallback code k).kbChanged = 1 ∧ (loggingKbCallback code k).kbLast = code.toNat := by
  unfold loggingKbCallback
  split_ifs <;> exact ⟨rfl, rfl⟩

/-- The returns so far are not touched by another code. -/
theorem rilasci_tasto (hn : ∀ n ∈ x.1.resi.map Prod.fst, n ≤ x.1.arrivati.length)
    (code : BitVec 8) : Rilasci (tasto x.1 code) ↔ Rilasci x.1 := by
  have hget : ∀ r ∈ x.1.resi, 1 ≤ r.1 →
      (x.1.arrivati ++ [code])[r.1 - 1]? = x.1.arrivati[r.1 - 1]? := by
    intro r hr hpos
    have hle := hn r.1 (List.mem_map_of_mem hr)
    exact List.getElem?_append_left (by omega)
  constructor
  · intro h
    refine ⟨h.ordine, ?_⟩
    intro r hr
    obtain ⟨hpos, c, hc, hrest⟩ := h.evento r hr
    exact ⟨hpos, c, (hget r hr hpos).symm.trans hc, hrest⟩
  · intro h
    refine ⟨h.ordine, ?_⟩
    intro r hr
    obtain ⟨hpos, c, hc, hrest⟩ := h.evento r hr
    exact ⟨hpos, c, (hget r hr hpos).trans hc, hrest⟩

theorem Annotato.tasto (h : Annotato x) (code : BitVec 8) :
    Annotato (Tastiera.tasto x.1 code, false) := by
  obtain ⟨_, hlast⟩ := loggingKbCallback_kb code x.1.kernel
  have hlen : (x.1.arrivati ++ [code]).length = x.1.arrivati.length + 1 := by simp
  have hnew : (x.1.arrivati ++ [code]).length ∉ x.1.resi.map Prod.fst := by
    intro hmem
    have hle := h.resi _ hmem
    omega
  refine
    { resi := ?_
      ultimo := ?_
      replica := fun hr => by cases hr
      nuovo := fun hmem => absurd hmem hnew
      vuoto := fun hnil => absurd hnil (by simp [Tastiera.tasto]) }
  · intro n hmem
    have hle := h.resi n hmem
    exact hle.trans (by simp [Tastiera.tasto])
  · intro c hc
    have hcode : code = c := by simpa [Tastiera.tasto] using hc
    rw [← hcode, Attesa.ultimo, Tastiera.tasto, hlast]
    apply BitVec.eq_of_toNat_eq
    simp

/-! ## A step of the call -/

/-- A step that neither returns nor takes a code. -/
theorem Annotato.avanza (h : Annotato x) {s : Attesa} (harr : s.arrivati = x.1.arrivati)
    (hresi : s.resi = x.1.resi) (hlast : s.ultimo = x.1.ultimo)
    (hq : Quieto x.1 → Quieto s) : Annotato (s, x.2) ∧ (Rilasci s ↔ Rilasci x.1) := by
  constructor
  · refine ⟨?_, ?_, ?_, ?_, ?_⟩
    · intro n hn
      dsimp only at hn ⊢
      rw [hresi] at hn
      rw [harr]
      exact h.resi n hn
    · intro c hc
      dsimp only at hc ⊢
      rw [harr] at hc
      rw [hlast]
      exact h.ultimo c hc
    · intro hr
      dsimp only at hr ⊢
      rw [harr, hresi]
      exact h.replica hr
    · intro hmem
      dsimp only at hmem ⊢
      rw [harr, hresi] at hmem
      exact (h.nuovo hmem).imp_right hq
    · intro hnil
      dsimp only at hnil ⊢
      rw [harr] at hnil
      exact hq (h.vuoto hnil)
  · constructor
    · intro hR
      exact ⟨hresi ▸ hR.ordine, harr ▸ hresi ▸ hR.evento⟩
    · intro hR
      exact ⟨hresi ▸ hR.ordine, harr ▸ hresi ▸ hR.evento⟩

/-- The steps before the return. -/
theorem Annotato.altrove (h : Annotato x) (hp : x.1.punto ≠ .restituisce) {s : Attesa}
    (hs : Tastiera.avanza x.1 = some s) : Annotato (s, x.2) ∧ (Rilasci s ↔ Rilasci x.1) := by
  unfold Tastiera.avanza at hs
  split at hs
  · cases hs
  · obtain rfl := Option.some.inj hs
    split
    · rename_i hset
      exact h.avanza rfl rfl rfl fun hq => absurd hset hq.1
    · exact ⟨h, Iff.rfl⟩
  · rename_i hpunto
    obtain rfl := Option.some.inj hs
    exact h.avanza rfl rfl rfl fun hq => absurd hq (occupato (by simp [hpunto]) (by simp [hpunto]))
  · rename_i hpunto
    obtain rfl := Option.some.inj hs
    exact h.avanza rfl rfl rfl fun hq => absurd hq (occupato (by simp [hpunto]) (by simp [hpunto]))
  · rename_i hpunto
    exact absurd hpunto hp

/-- A call that returns has a code to return, and `replica` says whether it is a new one. -/
theorem Annotato.in_corso (h : Annotato x) (hp : x.1.punto = .restituisce) :
    (∃ c, x.1.arrivati[x.1.arrivati.length - 1]? = some c ∧ x.1.ultimo = c.setWidth 32) ∧
      1 ≤ x.1.arrivati.length ∧
      (x.2 = true ↔ x.1.arrivati.length ∈ x.1.resi.map Prod.fst) := by
  have hbusy : ¬ Quieto x.1 := occupato (by simp [hp]) (by simp [hp])
  have hne : x.1.arrivati ≠ [] := fun hnil => hbusy (h.vuoto hnil)
  have hlast := List.getLast?_eq_some_getLast hne
  refine ⟨⟨_, ?_, h.ultimo _ hlast⟩, List.length_pos_iff.mpr hne, h.replica, ?_⟩
  · rw [← List.getLast?_eq_getElem?]
    exact hlast
  · intro hmem
    exact (h.nuovo hmem).resolve_right hbusy

/-- The state after a return. -/
def reso (s : Attesa) : Attesa :=
  { s with punto := .fuori, resi := s.resi ++ [(s.arrivati.length, s.ultimo &&& 0x7F)] }

theorem Annotato.reso (h : Annotato x) :
    Annotato (Tastiera.reso x.1, decide (x.1.kernel.kbChanged = 1)) := by
  have hresi : (Tastiera.reso x.1).resi.map Prod.fst =
      x.1.resi.map Prod.fst ++ [x.1.arrivati.length] := by
    rw [Tastiera.reso, List.map_append]
    rfl
  refine ⟨?_, h.ultimo, ?_, ?_, ?_⟩
  · intro n hn
    dsimp only at hn
    rw [hresi] at hn
    rcases List.mem_append.mp hn with hn | hn
    · exact h.resi n hn
    · exact (List.mem_singleton.mp hn).le
  · intro _
    dsimp only
    rw [hresi]
    exact List.mem_append_right _ (List.mem_singleton_self _)
  · intro _
    by_cases hset : x.1.kernel.kbChanged = 1
    · exact Or.inl (decide_eq_true hset)
    · exact Or.inr ⟨hset, Or.inl rfl⟩
  · intro hnil
    exact ⟨(h.vuoto hnil).1, Or.inl rfl⟩

/-- A return keeps the order exactly if it is harmless. -/
theorem Annotato.rilasci_reso (h : Annotato x) (hp : x.1.punto = .restituisce) :
    Rilasci (Tastiera.reso x.1) ↔ Rilasci x.1 ∧ Innocuo x .avanza := by
  obtain ⟨⟨c, hc, hval⟩, hpos, hrep⟩ := h.in_corso hp
  have hbit : x.1.ultimo &&& 0x80 = 0x80 ↔ Rilascio c := by
    rw [hval]
    exact rilascio_iff c
  have hresi : (Tastiera.reso x.1).resi.map Prod.fst =
      x.1.resi.map Prod.fst ++ [x.1.arrivati.length] := by
    rw [Tastiera.reso, List.map_append]
    rfl
  have hlast : (x.1.arrivati.length, x.1.ultimo &&& 0x7F) ∈ (Tastiera.reso x.1).resi :=
    List.mem_append_right _ (List.mem_singleton_self _)
  constructor
  · intro hR
    have hord := hR.ordine
    rw [hresi, List.pairwise_append] at hord
    obtain ⟨hbefore, _, hlt⟩ := hord
    refine ⟨⟨hbefore, fun r hr => hR.evento r (List.mem_append_left _ hr)⟩, fun _ _ => ⟨?_, ?_⟩⟩
    · by_contra htrue
      have hmem := hrep.mp (Bool.eq_true_of_not_eq_false htrue)
      exact absurd (hlt _ hmem _ (List.mem_singleton_self _)) (Nat.lt_irrefl _)
    · obtain ⟨_, d, hd, hrel, _⟩ := hR.evento _ hlast
      obtain rfl := Option.some.inj (hc.symm.trans hd)
      exact hbit.mpr hrel
  · rintro ⟨hR, hgood⟩
    obtain ⟨hnew, hrel⟩ := hgood rfl hp
    refine ⟨?_, ?_⟩
    · rw [hresi, List.pairwise_append]
      refine ⟨hR.ordine, List.pairwise_singleton _ _, ?_⟩
      intro n hn m hm
      obtain rfl := List.mem_singleton.mp hm
      refine lt_of_le_of_ne (h.resi n hn) ?_
      rintro rfl
      rw [hrep.mpr hn] at hnew
      cases hnew
    · intro r hr
      rcases List.mem_append.mp hr with hr | hr
      · exact hR.evento r hr
      · obtain rfl := List.mem_singleton.mp hr
        exact ⟨hpos, c, hc, hbit.mp hrel, by rw [hval]⟩

theorem Annotato.passo (h : Annotato x) (hstep : Passo x e y) :
    Annotato y ∧ (Rilasci y.1 ↔ Rilasci x.1 ∧ Innocuo x e) := by
  obtain ⟨hs, hr⟩ := hstep
  have hy : y = (y.1, y.2) := rfl
  cases e with
  | tasto code =>
    have hgood : Innocuo x (.tasto code) := fun he => by cases he
    rw [hy, hr, ← Option.some.inj hs]
    exact ⟨h.tasto code, (rilasci_tasto h.resi code).trans (and_iff_left hgood).symm⟩
  | chiama =>
    have hgood : Innocuo x .chiama := fun he => by cases he
    rw [esegui] at hs
    split at hs
    · rw [hy, hr, ← Option.some.inj hs]
      obtain ⟨hA, hR⟩ := h.avanza (s := { x.1 with punto := .prova }) rfl rfl rfl
        fun hq => ⟨hq.1, Or.inr rfl⟩
      exact ⟨hA, hR.trans (and_iff_left hgood).symm⟩
    · cases hs
  | avanza =>
    have hstep : Tastiera.avanza x.1 = some y.1 := hs
    by_cases hp : x.1.punto = .restituisce
    · rw [Tastiera.avanza, hp] at hstep
      rw [Tastiera.replica, if_pos hp] at hr
      rw [hy, hr, ← Option.some.inj hstep]
      exact ⟨h.reso, h.rilasci_reso hp⟩
    · have hgood : Innocuo x .avanza := fun _ hp' => absurd hp' hp
      obtain ⟨hA, hR⟩ := h.altrove hp hstep
      rw [Tastiera.replica, if_neg hp] at hr
      rw [hy, hr]
      exact ⟨hA, hR.trans (and_iff_left hgood).symm⟩

/-- In every interleaving of scan codes with the steps of any number of calls: the returns are those
of different releases in their order if and only if at the last read of every call the code in
`kb_last` is a release, and is not the one at which the call before returned with `kb_changed`
set again. -/
theorem rilasci (k : Kernel) (hk : k.kbChanged = 0) (es : List Evento) (x : Attesa × Bool)
    (h : Run Passo (inizio k, false) es x) :
    Rilasci x.1 ↔ Run (fun a e b => Passo a e b ∧ Innocuo a e) (inizio k, false) es x := by
  have hempty : Rilasci (inizio k) :=
    ⟨List.Pairwise.nil, fun _ hr => absurd hr List.not_mem_nil⟩
  have hdet : ∀ a e b c, Passo a e b → Passo a e c → b = c := fun _ _ _ _ => passo_unico
  have hkeep : ∀ a e b, Annotato a → Passo a e b →
      Annotato b ∧ (Rilasci b.1 ↔ Rilasci a.1 ∧ Innocuo a e) := fun _ _ _ hI hs => hI.passo hs
  have hiff := Run.keeps_iff (P := fun y : Attesa × Bool => Rilasci y.1) hdet hkeep h
    (annotato_inizio hk)
  rw [hiff]
  exact and_iff_right hempty

/-- Key A is pressed, and released while the call is between the clearing and the first read: the
release is returned twice. -/
theorem rilascio_ripetuto : ((exec esegui (inizio caricato)
    [.chiama, .tasto 0x1E, .avanza, .avanza, .tasto 0x9E, .avanza, .avanza,
      .chiama, .avanza, .avanza, .avanza, .avanza]).map Attesa.resi) =
    some [(2, 0x1E), (2, 0x1E)] := by
  decide +kernel

instance (x : Attesa × Bool) (e : Evento) : Decidable (Innocuo x e) :=
  inferInstanceAs (Decidable (_ → _ → _))

/-- A harmless step that is evaluated. -/
def provaPasso (x : Attesa × Bool) (e : Evento) : Option (Attesa × Bool) :=
  if Innocuo x e then (esegui x.1 e).map fun s => (s, replica x e) else none

theorem provaPasso_passo (h : provaPasso x e = some y) : Passo x e y ∧ Innocuo x e := by
  unfold provaPasso at h
  split at h
  · rename_i hgood
    obtain ⟨s, hs, rfl⟩ := Option.map_eq_some_iff.mp h
    exact ⟨⟨hs, rfl⟩, hgood⟩
  · cases h

theorem rilasci_corsa : ∃ x, Run Passo (inizio caricato, false)
    [.tasto 0x1E, .chiama, .avanza, .avanza, .avanza, .tasto 0x9E, .avanza, .avanza, .avanza,
      .avanza] x ∧ x.1.resi = [(2, 0x1E)] ∧ Rilasci x.1 := by
  have hexec : (exec provaPasso (inizio caricato, false)
      [.tasto 0x1E, .chiama, .avanza, .avanza, .avanza, .tasto 0x9E, .avanza, .avanza, .avanza,
        .avanza]).map (fun x => x.1.resi) = some [(2, 0x1E)] := by
    decide +kernel
  obtain ⟨x, hx, hout⟩ := Option.map_eq_some_iff.mp hexec
  have hgood := (exec_run hx).mono fun _ _ _ => provaPasso_passo
  have hrun := hgood.mono fun _ _ _ hs => hs.1
  exact ⟨x, hrun, hout, (rilasci caricato rfl _ x hrun).mpr hgood⟩

end Tastiera

end Pitos
