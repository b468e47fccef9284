import Pitos.Lib.Run
import Pitos.Refinement.Allocator

/-!
# The heap over whole runs

The calls come in any order, with the pointers that are out at the moment (`Ammessa`), and the
owners of the blocks write into what they asked for between one call and the next. `Registro` is
kept beside the heap: the pointers handed out and not given back, each with the size asked for.
-/

namespace Pitos

open Lib

namespace Heap

/-- The calls of the kernel, and a byte written by the owner of a block. -/
inductive Chiamata
  | malloc (n : Nat)
  | new (n : Nat)
  | vecNew (n : Nat)
  | free (p : Word)
  | delete (p : Word)
  | vecDelete (p : Word)
  | realloc (p : Word) (n : Nat)
  | scrive (a : Word) (v : BitVec 8)

abbrev Registro := List (Word × Nat)

def esegui (x : Heap × Registro) : Chiamata → Except Arresto (Heap × Registro)
  | .malloc n => (x.1.kiMalloc (BitVec.ofNat 32 n)).map fun y => (y.2, (y.1, n) :: x.2)
  | .new n => (x.1.builtinNew (BitVec.ofNat 32 n)).map fun y => (y.2, (y.1, n) :: x.2)
  | .vecNew n => (x.1.builtinVecNew (BitVec.ofNat 32 n)).map fun y => (y.2, (y.1, n) :: x.2)
  | .free p => (x.1.kiFree p).map fun s => (s, x.2.filter fun v => v.1 ≠ p)
  | .delete p => (x.1.builtinDelete p).map fun s => (s, x.2.filter fun v => v.1 ≠ p)
  | .vecDelete p => (x.1.builtinVecDelete p).map fun s => (s, x.2.filter fun v => v.1 ≠ p)
  | .realloc p n => (x.1.kiRealloc p (BitVec.ofNat 32 n)).map fun y =>
      (y.2, (y.1, n) :: x.2.filter fun v => v.1 ≠ p)
  | .scrive a v => .ok ({ x.1 with mem := x.1.mem.write8 a v }, x.2)

/-- Sizes up to that of the arena, pointers that are out, bytes of what was asked for. -/
def Ammessa (r : Registro) : Chiamata → Prop
  | .malloc n | .new n | .vecNew n => n ≤ 512000
  | .free p | .delete p | .vecDelete p => p ∈ r.map Prod.fst
  | .realloc p n => p ∈ r.map Prod.fst ∧ n ≤ 512000
  | .scrive a _ => ∃ v ∈ r, (a - v.1).toNat < v.2

instance (r : Registro) (e : Chiamata) : Decidable (Ammessa r e) := by
  cases e <;> unfold Ammessa <;> infer_instance

def Passo (x : Heap × Registro) (e : Chiamata) (y : Heap × Registro) : Prop :=
  Ammessa x.2 e ∧ esegui x e = .ok y

/-- The heap with the blocks `bs` and the free lists `L`, a block being in use when its pointer
is out. -/
structure InOrdine (s : Heap) (r : Registro) (bs : List Blocco) (L : Nat → List Word) : Prop where
  tessere : (bs = [] ∧ s.baseAddress = 10000000) ∨
    ∃ y, Tiles Blocco.inizio Blocco.fine 10000004 bs y ∧ y + 4 ≤ 10512000 ∧
      s.baseAddress = BitVec.ofNat 32 (y + 4)
  etichette : ∀ b ∈ bs, Etichetta s.mem b (if b.dati ∈ r.map Prod.fst then 1 else 0)
  misure : ∀ b ∈ bs, b.dim % 8 = 0 ∧ 8 ≤ b.dim
  vivi : ∀ v ∈ r, v.1.toNat % 8 = 0 ∧ ∃ b ∈ bs, v.1 = b.dati ∧ v.2 ≤ b.dim ∧
    10000000 ≤ b.inizio ∧ b.fine ≤ s.baseAddress.toNat
  disgiunti : r.Pairwise fun v w => ∀ b ∈ bs, ∀ c ∈ bs, v.1 = b.dati → w.1 = c.dati →
    b.fine ≤ c.inizio ∨ c.fine ≤ b.inizio
  liste : ∀ i, Linked s.successore (puntato (s.freelist i)) (L i)
  elencati : ∀ i, ∀ w ∈ L i, i < 30 ∧ i = size2bucket (s.size w) ∧
    ∃ b ∈ bs, w = b.ptr ∧ b.dati ∉ r.map Prod.fst
  avanzo : s.slop ≠ 0 → ∃ b ∈ bs, s.slop = b.ptr ∧ b.dati ∉ r.map Prod.fst
  liberi : ∀ b ∈ bs, b.dati ∉ r.map Prod.fst →
    Xor (s.slop = b.ptr) (b.ptr ∈ L (size2bucket (s.size b.ptr)))
  separati : ∀ b ∈ bs, ∀ c ∈ bs, b.dati ∉ r.map Prod.fst → c.dati ∉ r.map Prod.fst →
    b.fine ≠ c.inizio

/-! ## The pointers that are out -/

/-- The blocks in use are those of the register. -/
structure Registrati (q : Quadro) (r : Registro) : Prop where
  unici : (r.map Prod.fst).Nodup
  usati : ∀ v ∈ r, ∃ b, q.usato b ∧ v.1 = b.dati ∧ v.2 ≤ b.dim
  tutti : ∀ b, q.usato b → b.dati ∈ r.map Prod.fst

variable {V : Blocco → Prop} {m₀ m : Mem} {s : Heap} {q q' : Quadro} {b c : Blocco}
  {r : Registro} {x : Heap × Registro} {n : Nat}

theorem Piano.dati_inj (h : Piano V m₀ m q) (hb : b ∈ q.blocchi) (hc : c ∈ q.blocchi)
    (he : b.dati = c.dati) : b = c := by
  have hdb := h.dove hb
  have hdc := h.dove hc
  have hn := congrArg BitVec.toNat he
  simp only [Blocco.dati, BitVec.toNat_ofNat] at hn
  exact h.stesso_inizio hb hc (by omega)

/-- A block is in use when its pointer is out. -/
theorem Registrati.usato_iff (hr : Registrati q r) (h : Piano V m₀ m q) (hb : b ∈ q.blocchi) :
    q.usato b ↔ b.dati ∈ r.map Prod.fst := by
  refine ⟨hr.tutti b, fun hm => ?_⟩
  obtain ⟨v, hv, hvb⟩ := List.mem_map.mp hm
  obtain ⟨c, hc, hvc, _⟩ := hr.usati v hv
  rwa [h.dati_inj hb (h.usati c hc).1 (hvb.symm.trans hvc)]

/-- A pointer of the register is that of a block in use. -/
theorem Registrati.blocco {p : Word} (hr : Registrati q r) (hp : p ∈ r.map Prod.fst) :
    ∃ b, q.usato b ∧ p = b.dati := by
  obtain ⟨v, hv, rfl⟩ := List.mem_map.mp hp
  obtain ⟨b, hb, hvb, _⟩ := hr.usati v hv
  exact ⟨b, hb, hvb⟩

/-- A new block enters the register. -/
theorem Registrati.aggiunge (hr : Registrati q r) (h : Piano V m₀ m q') (hn : n ≤ c.dim)
    (hnew : ¬ q.usato c) (hus : ∀ d, q'.usato d ↔ q.usato d ∨ d = c) :
    Registrati q' ((c.dati, n) :: r) := by
  refine ⟨?_, fun v hv => ?_, fun d hd => ?_⟩
  · rw [List.map_cons]
    refine List.nodup_cons.mpr ⟨fun hm => ?_, hr.unici⟩
    obtain ⟨d, hd, hcd⟩ := hr.blocco hm
    have hcin := (h.usati c ((hus c).mpr (Or.inr rfl))).1
    have hdin := (h.usati d ((hus d).mpr (Or.inl hd))).1
    exact hnew (h.dati_inj hcin hdin hcd ▸ hd)
  · rcases List.mem_cons.mp hv with rfl | hv
    · exact ⟨c, (hus c).mpr (Or.inr rfl), rfl, hn⟩
    · obtain ⟨d, hd, hvd, hle⟩ := hr.usati v hv
      exact ⟨d, (hus d).mpr (Or.inl hd), hvd, hle⟩
  · rw [List.map_cons]
    rcases (hus d).mp hd with hd | rfl
    · exact List.mem_cons_of_mem _ (hr.tutti d hd)
    · exact List.mem_cons_self

/-- A block given back leaves it. -/
theorem Registrati.toglie (hr : Registrati q r) (h : Piano V m₀ m q) (hb : q.usato b)
    (hus : ∀ d, q'.usato d ↔ q.usato d ∧ d ≠ b) :
    Registrati q' (r.filter fun v => v.1 ≠ b.dati) := by
  have hbin := (h.usati b hb).1
  refine ⟨?_, fun v hv => ?_, fun d hd => ?_⟩
  · exact hr.unici.sublist (List.filter_sublist.map Prod.fst)
  · simp only [List.mem_filter, decide_eq_true_eq] at hv
    obtain ⟨hv, hne⟩ := hv
    obtain ⟨d, hd, hvd, hle⟩ := hr.usati v hv
    refine ⟨d, (hus d).mpr ⟨hd, ?_⟩, hvd, hle⟩
    rintro rfl
    exact hne hvd
  · obtain ⟨hd, hdb⟩ := (hus d).mp hd
    obtain ⟨v, hv, hvd⟩ := List.mem_map.mp (hr.tutti d hd)
    refine List.mem_map.mpr ⟨v, ?_, hvd⟩
    simp only [List.mem_filter, decide_eq_true_eq]
    refine ⟨hv, fun hvb => hdb ?_⟩
    exact h.dati_inj (h.usati d hd).1 hbin (hvd.symm.trans hvb)

/-! ## What every step preserves -/

/-- Nothing has been asked for yet, or the heap is as described. -/
def Ordinato (x : Heap × Registro) : Prop :=
  (∃ m, x = (iniziale m, [])) ∨
    ∃ q, Sano (fun _ => False) x.1.mem x.1 q ∧ q.Pieno ∧ Registrati q x.2

/-- A request in good order ends, or `sbrk` has no more memory. -/
def Riesce (e : Except Arresto (Heap × Registro)) : Prop :=
  e = .error .memoria ∨ ∃ y, e = .ok y ∧ Ordinato y

theorem Ordinato.malloc (h : Ordinato x) (hn : n ≤ 512000) : Riesce (esegui x (.malloc n)) := by
  have hgive : ∀ {V m₀ q}, Registrati q x.2 →
      Esaudita V m₀ q n (x.1.kiMalloc (BitVec.ofNat 32 n)) → Riesce (esegui x (.malloc n)) := by
    rintro V m₀ q hr (hfail | ⟨y, b, q', hy, hc⟩)
    · left
      rw [esegui, hfail]
      rfl
    · right
      refine ⟨(y.2, (y.1, n) :: x.2), ?_, Or.inr ⟨q', ?_, hc.pieno, ?_⟩⟩
      · rw [esegui, hy]
        rfl
      · exact hc.sano.custodisci fun _ hf => hf.elim
      · rw [hc.ptr]
        exact hr.aggiunge hc.sano.piano hc.basta hc.nuovo hc.usati
  rcases h with ⟨m, rfl⟩ | ⟨q, hs, hp, hr⟩
  · have hvuoto : Registrati Quadro.vuoto [] :=
      ⟨List.nodup_nil, fun v hv => absurd hv List.not_mem_nil, fun _ hf => hf.elim⟩
    exact hgive hvuoto (kiMalloc_iniziale m m hn)
  · exact hgive hr (hs.kiMalloc hp hn)

/-- Pointers are out only once the arena has been described. -/
theorem Ordinato.blocco {p : Word} (h : Ordinato x) (hp : p ∈ x.2.map Prod.fst) :
    ∃ q b, Sano (fun _ => False) x.1.mem x.1 q ∧ q.Pieno ∧ Registrati q x.2 ∧ q.usato b ∧
      p = b.dati := by
  rcases h with ⟨m, rfl⟩ | ⟨q, hs, hq, hr⟩
  · cases hp
  · obtain ⟨b, hb, rfl⟩ := hr.blocco hp
    exact ⟨q, b, hs, hq, hr, hb, rfl⟩

theorem Ordinato.free {p : Word} (h : Ordinato x) (hp : p ∈ x.2.map Prod.fst) :
    Riesce (esegui x (.free p)) := by
  obtain ⟨q, b, hs, hq, hr, hb, rfl⟩ := h.blocco hp
  obtain ⟨s', q', hfree, hs', hq', hus⟩ := hs.kiFree hq hb id
  right
  refine ⟨(s', x.2.filter fun v => v.1 ≠ b.dati), ?_, Or.inr ⟨q', ?_, hq', ?_⟩⟩
  · rw [esegui, hfree]
    rfl
  · exact hs'.custodisci fun _ hf => hf.elim
  · exact hr.toglie hs.piano hb hus

theorem Ordinato.realloc {p : Word} (h : Ordinato x) (hp : p ∈ x.2.map Prod.fst)
    (hn : n ≤ 512000) : Riesce (esegui x (.realloc p n)) := by
  obtain ⟨q, b, hs, hq, hr, hb, rfl⟩ := h.blocco hp
  -- what stays in use when the block is given up
  obtain ⟨q₁, hq₁⟩ : ∃ q₁ : Quadro, q₁ = { q with usato := fun d => q.usato d ∧ d ≠ b } := ⟨_, rfl⟩
  have hr₁ : Registrati q₁ (x.2.filter fun v => v.1 ≠ b.dati) :=
    hr.toglie hs.piano hb fun d => by rw [hq₁]
  rcases hs.kiRealloc hq hb hn with hfail | ⟨hle, hstay⟩ | ⟨y, c, q', hy, hmove⟩
  · left
    rw [esegui, hfail]
    rfl
  · right
    refine ⟨(x.1, (b.dati, n) :: x.2.filter fun v => v.1 ≠ b.dati), ?_, Or.inr ⟨q, hs, hq, ?_⟩⟩
    · rw [esegui, hstay]
      rfl
    · refine hr₁.aggiunge hs.piano hle ?_ fun d => ?_
      · rw [hq₁]
        exact fun hu => hu.2 rfl
      · rw [hq₁]
        by_cases hdb : d = b
        · simp [hdb, hb]
        · simp [hdb]
  · right
    refine ⟨(y.2, (y.1, n) :: x.2.filter fun v => v.1 ≠ b.dati), ?_,
      Or.inr ⟨q', ?_, hmove.pieno, ?_⟩⟩
    · rw [esegui, hy]
      rfl
    · exact hmove.sano.custodisci fun _ hf => hf.elim
    · rw [hmove.ptr]
      refine hr₁.aggiunge hmove.sano.piano hmove.basta ?_ fun d => ?_
      · rw [hq₁]
        exact fun hu => hmove.nuovo hu.1
      · rw [hq₁]
        exact hmove.usati d

theorem Ordinato.scrive {a : Word} {w : BitVec 8} (h : Ordinato x)
    (ha : ∃ v ∈ x.2, (a - v.1).toNat < v.2) : Riesce (esegui x (.scrive a w)) := by
  obtain ⟨v, hv, hin⟩ := ha
  rcases h with ⟨m, rfl⟩ | ⟨q, hs, hq, hr⟩
  · cases hv
  · obtain ⟨b, hb, hvb, hle⟩ := hr.usati v hv
    have hd := hs.piano.dove (hs.piano.usati b hb).1
    have hch : Mem.ChangesAt (Mem.Between (b.inizio + 4) (b.inizio + 4 + b.dim)) x.1.mem
        (x.1.mem.write8 a w) := by
      apply (Mem.ChangesAt.refl x.1.mem).write8
      rw [hvb] at hin
      obtain ⟨h1, h2⟩ := (Mem.within_ofNat (by omega)).mp hin
      exact ⟨h1, by omega⟩
    right
    exact ⟨_, rfl, Or.inr ⟨q, (hs.scrittura hb rfl hch).custodisci fun _ hf => hf.elim, hq, hr⟩⟩

/-- Every admissible call ends in good order unless the memory is used up. -/
theorem Ordinato.passo (h : Ordinato x) {e : Chiamata} (he : Ammessa x.2 e) :
    Riesce (esegui x e) := by
  cases e with
  | malloc n => exact h.malloc he
  | new n => exact h.malloc he
  | vecNew n => exact h.malloc he
  | free p => exact h.free he
  | delete p => exact h.free he
  | vecDelete p => exact h.free he
  | realloc p n => exact h.realloc he.1 he.2
  | scrive a v => exact h.scrive he

theorem Ordinato.corsa {es : List Chiamata} (m : Mem) (h : Run Passo (iniziale m, []) es x) :
    Ordinato x := by
  refine h.invariant (fun x e y hx hstep => ?_) (Or.inl ⟨m, rfl⟩)
  obtain ⟨hamm, hok⟩ := hstep
  rcases hx.passo hamm with hfail | ⟨z, hz, hord⟩
  · rw [hfail] at hok
    cases hok
  · obtain rfl := Except.ok.inj (hz.symm.trans hok)
    exact hord

/-! ## The heap in order -/

theorem Sano.inOrdine (h : Sano V m₀ s q) (hq : q.Pieno) (hr : Registrati q r) :
    InOrdine s r q.blocchi q.lista := by
  have hpiano := h.piano
  have hlim := hpiano.limite
  have hbase : s.baseAddress.toNat = q.fine + 4 := by
    rw [h.arena, BitVec.toNat_ofNat]
    omega
  have hus : ∀ b ∈ q.blocchi, (q.usato b ↔ b.dati ∈ r.map Prod.fst) := fun b hb =>
    hr.usato_iff hpiano hb
  have hlibero : ∀ b ∈ q.blocchi, b.dati ∉ r.map Prod.fst → q.libero b := fun b hb hn =>
    (hq b hb).resolve_left fun hu => hn ((hus b hb).mp hu)
  have hfuori : ∀ b, q.libero b → b ∈ q.blocchi ∧ b.dati ∉ r.map Prod.fst := by
    intro b hb
    obtain ⟨hin, hu, _⟩ := hpiano.liberi b hb
    exact ⟨hin, fun hm => hu ((hus b hin).mpr hm)⟩
  have hsize : ∀ b, q.libero b → size2bucket (s.size b.ptr) = b.secchio := by
    intro b hb
    obtain ⟨hin, hu, _⟩ := hpiano.liberi b hb
    rw [(hpiano.altri b hin hu).size]
    rfl
  refine
    { tessere := Or.inr ⟨q.fine, hpiano.tessere, hlim, h.arena⟩
      etichette := fun b hb => ?_
      misure := fun b hb => (hpiano.misura b hb).2
      vivi := fun v hv => ?_
      disgiunti := ?_
      liste := h.elenchi.liste
      elencati := fun i w hw => ?_
      avanzo := fun hne => ?_
      liberi := fun b hb hn => ?_
      separati := fun b hb c hc hnb hnc => h.separati b c (hlibero b hb hnb) (hlibero c hc hnc) }
  · by_cases hm : b.dati ∈ r.map Prod.fst
    · rw [if_pos hm]
      exact (hpiano.usati b ((hus b hb).mpr hm)).2
    · rw [if_neg hm]
      exact hpiano.altri b hb fun hu => hm ((hus b hb).mp hu)
  · obtain ⟨b, hb, hvb, hle⟩ := hr.usati v hv
    have hin := (hpiano.usati b hb).1
    have hd := hpiano.dove hin
    refine ⟨?_, b, hin, hvb, hle, by omega, ?_⟩
    · rw [hvb, Blocco.dati, BitVec.toNat_ofNat]
      omega
    · rw [hbase]
      unfold Blocco.fine
      omega
  · have hpair : r.Pairwise fun v w => v.1 ≠ w.1 := by
      have hnodup := hr.unici
      rwa [List.Nodup, List.pairwise_map] at hnodup
    refine hpair.imp fun hvw b hb c hc hvb hwc => ?_
    apply hpiano.tessere.apart hb hc
    rintro rfl
    exact hvw (hvb.trans hwc.symm)
  · obtain ⟨b, hb, rfl, hi⟩ := h.elenchi.elencati i w hw
    obtain ⟨hin, hn⟩ := hfuori b hb
    have hd := hpiano.dove hin
    exact ⟨hi ▸ secchio_lt (by omega), hi.trans (hsize b hb).symm, b, hin, rfl, hn⟩
  · obtain ⟨b, hb, hs, _⟩ := h.elenchi.avanzo hne
    obtain ⟨hin, hn⟩ := hfuori b hb
    exact ⟨b, hin, hs, hn⟩
  · have hl := hlibero b hb hn
    rw [hsize b hl]
    rcases h.elenchi.posti b hl with hs | hm
    · exact Or.inl ⟨hs, (h.elenchi.di_avanzo hpiano hb hs).2 _⟩
    · exact Or.inr ⟨hm, fun hs => (h.elenchi.di_avanzo hpiano hb hs).2 _ hm⟩

theorem Ordinato.inOrdine (h : Ordinato x) : ∃ bs L, InOrdine x.1 x.2 bs L := by
  rcases h with ⟨m, rfl⟩ | ⟨q, hs, hq, hr⟩
  · refine ⟨[], fun _ => [], Or.inl ⟨rfl, rfl⟩, ?_, ?_, ?_, List.Pairwise.nil, fun _ => Linked.nil,
      fun _ _ hw => absurd hw List.not_mem_nil, fun hne => absurd rfl hne, ?_, ?_⟩ <;>
      exact fun _ hb => absurd hb List.not_mem_nil
  · exact ⟨_, _, hs.inOrdine hq hr⟩

/-- `ki_realloc` keeps the first bytes, as many as both sizes have. -/
theorem Ordinato.conserva {p : Word} {k : Nat} {y : Word × Heap} (h : Ordinato x)
    (hp : (p, k) ∈ x.2) (hn : n ≤ 512000) (hy : x.1.kiRealloc p (BitVec.ofNat 32 n) = .ok y)
    {i : Nat} (hi : i < min k n) :
    y.2.mem (y.1 + BitVec.ofNat 32 i) = x.1.mem (p + BitVec.ofNat 32 i) := by
  rcases h with ⟨m, rfl⟩ | ⟨q, hs, hq, hr⟩
  · cases hp
  · obtain ⟨b, hb, rfl, hle⟩ := hr.usati (p, k) hp
    rcases hs.kiRealloc hq hb hn with hfail | ⟨_, hstay⟩ | ⟨z, c, q', hz, hmove⟩
    · rw [hfail] at hy
      cases hy
    · obtain rfl := Except.ok.inj (hstay.symm.trans hy)
      rfl
    · obtain rfl := Except.ok.inj (hz.symm.trans hy)
      have hcopy := hmove.copiati.2 i (by omega)
      rw [hmove.ptr, Blocco.dati, Blocco.dati, ← BitVec.ofNat_add, ← BitVec.ofNat_add]
      exact hcopy

/-- A step that is evaluated. -/
def provaPasso (x : Heap × Registro) (e : Chiamata) : Option (Heap × Registro) :=
  if Ammessa x.2 e then (esegui x e).toOption else none

theorem provaPasso_passo {x y : Heap × Registro} {e : Chiamata} (h : provaPasso x e = some y) :
    Passo x e y := by
  unfold provaPasso at h
  split at h
  · rename_i he
    refine ⟨he, ?_⟩
    cases hr : esegui x e with
    | error a =>
      rw [hr] at h
      cases h
    | ok z =>
      rw [hr] at h
      obtain rfl := Option.some.inj h
      rfl
  · cases h

/-- In every run of admissible calls from the empty heap: the arena is tiled by blocks with
their tags, the pointers that are out are blocks apart from each other, aligned and large enough,
each free block has one place and no two of them are neighbours; the next call ends unless
`sbrk` fails, and `ki_realloc` keeps the bytes that both sizes have. -/
theorem heap_in_ordine (m : Mem) (es : List Chiamata) (x : Heap × Registro)
    (h : Run Passo (iniziale m, []) es x) :
    (∃ bs L, InOrdine x.1 x.2 bs L) ∧
    (∀ e, Ammessa x.2 e → esegui x e = .error .memoria ∨ ∃ y, esegui x e = .ok y) ∧
    ∀ p k n y, (p, k) ∈ x.2 → n ≤ 512000 → x.1.kiRealloc p (BitVec.ofNat 32 n) = .ok y →
      ∀ i < min k n, y.2.mem (y.1 + BitVec.ofNat 32 i) = x.1.mem (p + BitVec.ofNat 32 i) := by
  have hord := Ordinato.corsa m h
  refine ⟨hord.inOrdine, fun e he => ?_, fun p k n y hp hn hy i hi => hord.conserva hp hn hy hi⟩
  rcases hord.passo he with hfail | ⟨y, hy, _⟩
  · exact Or.inl hfail
  · exact Or.inr ⟨y, hy⟩

theorem heap_in_ordine_corsa : ∃ x, Run Passo (iniziale fun _ => 0, [])
    [.malloc 100, .new 20, .malloc 40, .free 10000008, .scrive 10000121 7, .realloc 10000120 300,
      .vecNew 30] x ∧ x.2 = [(10000008, 30), (10000216, 300), (10000160, 40)] ∧
    ∃ bs L, InOrdine x.1 x.2 bs L := by
  have hexec : (exec provaPasso (iniziale fun _ => 0, [])
      [.malloc 100, .new 20, .malloc 40, .free 10000008, .scrive 10000121 7,
        .realloc 10000120 300, .vecNew 30]).map Prod.snd =
      some [(10000008, 30), (10000216, 300), (10000160, 40)] := by
    decide +kernel
  obtain ⟨x, hx, hout⟩ := Option.map_eq_some_iff.mp hexec
  have hrun := (exec_run hx).mono fun _ _ _ => provaPasso_passo
  exact ⟨x, hrun, hout, (heap_in_ordine _ _ x hrun).1⟩

end Heap

end Pitos
