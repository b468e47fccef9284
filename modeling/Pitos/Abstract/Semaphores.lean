import Pitos.Abstract.Invariant
import Pitos.Lib.Semaphore

/-!
# Semaphores refine counting semaphores served by priority

`Specchio a i m`: semaphore `i` of the abstract kernel is the counting semaphore `m` of
`Pitos.Lib.Semaphore`. Its `count` is the number of permits less the number of waiters, and its
queue serves the waiters by priority. The moves on the semaphore are the operations of the
same meaning on `m`, and every other move leaves it alone.
-/

namespace Pitos

open Lib Astratto

/-- The move is about semaphore `i`. -/
def Atto.riguarda (i : Fin MAXSEMS) : Atto → Prop
  | .semIni j _ => j = i
  | .passa j => j = i
  | .blocca j _ => j = i
  | .libera j => j = i
  | .sveglia j _ => j = i
  | .cede j _ _ => j = i
  | _ => False

structure Specchio (a : Astratto) (i : Fin MAXSEMS) (m : PrioSem Pid) : Prop where
  busy : (a.sem i).busy = true
  count : (a.sem i).count = m.permits - m.waiting.length
  massimo : (a.sem i).count ≤ INT_MAX
  serve : PrioSem.Serves a.prec (a.sem i).coda m.waiting
  sound : m.Sound

/-! ## What a move leaves alone -/

section Frame

variable {a b : Astratto} {t : Atto} {i : Fin MAXSEMS} {p q : Pid}

theorem prec_saldo : a.saldo.prec = a.prec := by
  funext q
  exact campo_saldo DesProc.prec (fun _ => rfl) q

/-- An assignment to fields other than `prec`. -/
theorem prec_aggiorna (f : DesProc → DesProc) (hf : ∀ d, (f d).prec = d.prec) :
    (a.aggiorna p f).prec = a.prec := by
  funext q
  exact campo_aggiorna DesProc.prec (hf _) q

@[simp] theorem prec_schedulatore : a.schedulatore.prec = a.prec := by
  unfold Astratto.schedulatore
  split
  · rfl
  · exact (prec_aggiorna (a := a.saldo) DesProc.avviato fun _ => rfl).trans prec_saldo

theorem prec_orologio : a.orologio.prec = a.prec := by
  funext q
  rw [orologio, svegliaTutti_eq]
  simp only [prec, setSonno]
  split <;> rfl

@[simp] theorem sem_orologio : a.orologio.sem = a.sem := by
  rw [orologio, svegliaTutti_eq]
  rfl

/-- Priorities are given at the activation and changed by `reschedule` only, which is about the
ready processes and the running one. -/
theorem Mossa.prec_eq (h : Mossa a t b) (hI : Inv a) (hq : q ∈ a.vivi)
    (ht : t = .rischedula → q ∉ a.pronti ∧ a.esecuzione ≠ some q) : b.prec q = a.prec q := by
  cases h with
  | parte he => rw [prec_schedulatore]
  | dati p d he hp h => exact campo_aggiorna DesProc.prec h.prec q
  | chiude he => exact congrFun (prec_aggiorna DesProc.chiuso fun _ => rfl) q
  | attiva p d he hfree hstato htick htotal hbase hmask hgestori =>
    have hqp : q ≠ p := fun e => mem_vivi.mp hq (e ▸ hfree)
    simp [prec, setProcCount, hqp]
  | termina p he hp =>
    rw [prec_schedulatore]
    exact congrFun (prec_aggiorna DesProc.libero fun _ => rfl) q
  | blocca i p he hp hc => rw [prec_schedulatore]; rfl
  | cede i p r l he hc hq hprec =>
    exact congrFun (prec_aggiorna (a := ((a.setCount i _).setCoda i l).accoda p |>.setEsecuzione _)
      DesProc.pronto fun _ => rfl) q
  | dorme d x he hp hx => rw [prec_schedulatore]; rfl
  | orologio => rw [prec_orologio]
  | conta p he => exact congrFun (prec_aggiorna DesProc.contato fun _ => rfl) q
  | prelazione p he hr ht' => rw [prec_schedulatore]; rfl
  | rischedula p he hr =>
    obtain ⟨hqp, hqe⟩ := ht rfl
    have hne : q ≠ p := fun e => hqe (e ▸ he)
    rw [prec_schedulatore]
    unfold prec
    rw [dati_reschedule (hI.accoda_nodup he), if_neg]
    · rw [dati_accoda, dati_aggiorna, Function.update_of_ne hne]
      rfl
    · intro hmem
      rcases mem_insertByKey.mp hmem with h | h
      · exact hne h
      · exact hqp h
  | _ => rfl

theorem Mossa.sem_eq (h : Mossa a t b) (ht : ¬ t.riguarda i) : b.sem i = a.sem i := by
  cases h with
  | parte he => rw [sem_schedulatore]
  | termina p he hp => rw [sem_schedulatore]; rfl
  | semIni j valore hbusy => exact Function.update_of_ne (Ne.symm ht) _ _
  | passa j hc => exact Function.update_of_ne (Ne.symm ht) _ _
  | blocca j p he hp hc =>
    rw [sem_schedulatore]
    exact (Function.update_of_ne (Ne.symm ht) _ _).trans (Function.update_of_ne (Ne.symm ht) _ _)
  | libera j hc => exact Function.update_of_ne (Ne.symm ht) _ _
  | sveglia j p q l he hc hq hprec =>
    exact (Function.update_of_ne (Ne.symm ht) _ _).trans (Function.update_of_ne (Ne.symm ht) _ _)
  | cede j p q l he hc hq hprec =>
    exact (Function.update_of_ne (Ne.symm ht) _ _).trans (Function.update_of_ne (Ne.symm ht) _ _)
  | dorme d x he hp hx => rw [sem_schedulatore]; rfl
  | orologio => rw [sem_orologio]
  | prelazione p he hr ht' => rw [sem_schedulatore]; rfl
  | rischedula p he hr =>
    rw [sem_schedulatore, sem_reschedule]
    rfl
  | _ => rfl

end Frame

/-! ## The moves on a semaphore -/

namespace Specchio

variable {a b : Astratto} {t : Atto} {i : Fin MAXSEMS} {p q : Pid} {m : PrioSem Pid}

theorem waiting_eq (h : Specchio a i m) (hI : Inv a) : m.waiting.length ≤ 20 := by
  have hnodup : (a.sem i).coda.Nodup := by
    apply List.nodup_iff_count_le_one.mpr
    intro q
    have hle : (a.sem i).coda.count q ≤ ∑ j, (a.sem j).coda.count q :=
      Finset.single_le_sum (f := fun j => (a.sem j).coda.count q) (fun _ _ => Nat.zero_le _)
        (Finset.mem_univ i)
    have := hI.inCoda_le q
    unfold inCoda at this
    omega
  have hlen := hnodup.length_le_card
  simp only [Fintype.card_fin] at hlen
  rwa [h.serve.perm.length_eq] at hlen

/-- While somebody waits there is no permit. -/
theorem waiting_nil_or (h : Specchio a i m) : m.waiting = [] ∨ m.permits = 0 := by
  by_cases h0 : m.permits = 0
  · exact Or.inr h0
  · exact Or.inl (h.sound.busy h0)

/-- The arithmetic of `count` does not wrap. -/
theorem int32_count (h : Specchio a i m) (hI : Inv a) {d : Int} (hd : -1 ≤ d)
    (hd' : (a.sem i).count + d ≤ INT_MAX) : int32 ((a.sem i).count + d) = (a.sem i).count + d := by
  have h1 := h.waiting_eq hI
  have h2 := h.count
  exact int32_of_range (by omega) hd'

theorem int32_pred (h : Specchio a i m) (hI : Inv a) :
    int32 ((a.sem i).count - 1) = (a.sem i).count - 1 := by
  have hmax := h.massimo
  have hint := h.int32_count hI (d := -1) (by omega) (by omega)
  rwa [← Int.sub_eq_add_neg] at hint

theorem altrove (h : Specchio a i m) (hI : Inv a) (hm : Mossa a t b) (ht : ¬ t.riguarda i) :
    Specchio b i m := by
  have hsem := hm.sem_eq ht
  refine ⟨by rw [hsem]; exact h.busy, by rw [hsem]; exact h.count, by rw [hsem]; exact h.massimo,
    ?_, h.sound⟩
  rw [hsem]
  refine h.serve.congr fun q hq =>
    hm.prec_eq hI (hI.coda_vivi q hq) fun _ => ⟨fun hp => ?_, fun he => ?_⟩
  · exact hI.separati.pronti_coda hp hq
  · have h1 := hI.inCoda_esecuzione he
    have h2 := presenze_pos_of_coda hq
    omega

theorem ini {valore : Int} (hv : 0 ≤ valore) (hv' : valore ≤ INT_MAX)
    (hm : Mossa a (.semIni i valore) b) : Specchio b i (PrioSem.new valore.toNat) := by
  cases hm with
  | semIni _ _ hbusy =>
    have hsem : (a.setSem i { coda := [], count := valore, busy := true }).sem i =
        { coda := [], count := valore, busy := true } := Function.update_self _ _ _
    refine ⟨by rw [hsem], ?_, by rw [hsem]; exact hv', by rw [hsem]; exact PrioSem.Serves.nil,
      PrioSem.sound_new _⟩
    rw [hsem]
    show valore = (valore.toNat : Int) - (([] : List Pid).length : Int)
    simp [Int.toNat_of_nonneg hv]

/-- `ki_sem_wait` is `wait`. -/
theorem passa (h : Specchio a i m) (hI : Inv a) (hm : Mossa a (.passa i) b) (p : Pid) :
    Specchio b i (m.wait p) := by
  cases hm with
  | passa _ hc =>
    have hcount := h.count
    have hmax := h.massimo
    rw [h.int32_pred hI] at hc ⊢
    have h0 : m.permits ≠ 0 := by omega
    have hwait : m.wait p = { m with
        waits := m.waits + 1
        permits := m.permits - 1, passed := m.passed + 1, inside := p :: m.inside } := if_neg h0
    have hsem : (a.setCount i ((a.sem i).count - 1)).sem i =
        { a.sem i with count := (a.sem i).count - 1 } := Function.update_self _ _ _
    refine ⟨by rw [hsem]; exact h.busy, ?_, ?_, ?_, h.sound.wait p⟩
    · rw [hsem, hwait]
      simp only
      omega
    · rw [hsem]
      simp only
      omega
    · rw [hsem, hwait]
      exact h.serve

theorem blocca (h : Specchio a i m) (hI : Inv a) (hm : Mossa a (.blocca i p) b) :
    Specchio b i (m.wait p) := by
  cases hm with
  | blocca _ _ he hp hc =>
    have hcount := h.count
    have hmax := h.massimo
    rw [h.int32_pred hI] at hc ⊢
    have h0 : m.permits = 0 := by
      rcases h.waiting_nil_or with hw | h0
      · rw [hw] at hcount
        simp only [List.length_nil] at hcount
        omega
      · exact h0
    have hwait : m.wait p = { m with
        waits := m.waits + 1, waiting := m.waiting ++ [p] } := if_pos h0
    have hsem : ((a.setCount i ((a.sem i).count - 1)).setCoda i
        (insertByKey a.prec p (a.sem i).coda)).sem i =
        { a.sem i with
          count := (a.sem i).count - 1, coda := insertByKey a.prec p (a.sem i).coda } := by
      simp [setCoda, setCount, setSem]
    refine ⟨?_, ?_, ?_, ?_, h.sound.wait p⟩
    · rw [sem_schedulatore, hsem]
      exact h.busy
    · rw [sem_schedulatore, hsem, hwait]
      simp only [List.length_append, List.length_singleton]
      omega
    · rw [sem_schedulatore, hsem]
      simp only
      omega
    · rw [sem_schedulatore, hsem, hwait, prec_schedulatore]
      exact h.serve.insert p

/-- `ki_sem_signal` is `signal`. -/
theorem libera (h : Specchio a i m) (hI : Inv a) (hm : Mossa a (.libera i) b)
    (hmax : (a.sem i).count < INT_MAX) (p : Pid) : Specchio b i (m.signal a.prec p) := by
  have hcount := h.count
  have hint := h.int32_count hI (d := 1) (by omega) (by omega)
  have hnil : m.waiting = [] := by
    cases hm with
    | libera _ hc =>
      rcases hc with hc | hc
      · rw [hint] at hc
        rcases h.waiting_nil_or with hw | h0
        · exact hw
        · rw [h0] at hcount
          exact List.length_eq_zero_iff.mp (by omega)
      · have := h.serve.perm
        rw [hc] at this
        exact this.nil_eq.symm
  have hsound := h.sound.signal a.prec p
  cases hm with
  | libera _ hc =>
    have hnext : m.waiting.argmin a.prec = none := by rw [hnil]; rfl
    have hsig : (m.signal a.prec p).waiting = m.waiting ∧
        (m.signal a.prec p).permits = m.permits + 1 := by
      simp only [PrioSem.signal, PrioSem.next, hnext, and_self]
    have hsem : (a.setCount i ((a.sem i).count + 1)).sem i =
        { a.sem i with count := (a.sem i).count + 1 } := Function.update_self _ _ _
    rw [hint]
    refine ⟨by rw [hsem]; exact h.busy, ?_, ?_, ?_, hsound⟩
    · rw [hsem, hsig.1, hsig.2]
      simp only
      omega
    · rw [hsem]
      simp only
      omega
    · rw [hsem, hsig.1]
      exact h.serve

/-- The part of a signal with waiters that concerns the semaphore. -/
theorem servi {l : List Pid} (h : Specchio a i m) (hI : Inv a) (hmax : (a.sem i).count < INT_MAX)
    (hq : (a.sem i).coda = q :: l) (p : Pid) (hprec : b.prec = a.prec)
    (hsem : b.sem i = { a.sem i with count := int32 ((a.sem i).count + 1), coda := l }) :
    Specchio b i (m.signal a.prec p) := by
  have hcount := h.count
  have hint := h.int32_count hI (d := 1) (by omega) (by omega)
  have hserve := h.serve
  rw [hq] at hserve
  have hnext := hserve.next_eq
  have hsig : (m.signal a.prec p).waiting = m.waiting.erase q ∧
      (m.signal a.prec p).permits = m.permits := by
    simp only [PrioSem.signal, PrioSem.next, hnext, and_self]
  have hmem : q ∈ m.waiting := List.argmin_mem hnext
  have hlen := List.length_erase_of_mem hmem
  have hpos := List.length_pos_of_mem hmem
  rw [hint] at hsem
  refine ⟨by rw [hsem]; exact h.busy, ?_, ?_, ?_, h.sound.signal a.prec p⟩
  · rw [hsem, hsig.1, hsig.2, hlen]
    simp only
    omega
  · rw [hsem]
    simp only
    omega
  · rw [hsem, hsig.1, hprec]
    exact hserve.tail

theorem sveglia (h : Specchio a i m) (hI : Inv a) (hm : Mossa a (.sveglia i q) b)
    (hmax : (a.sem i).count < INT_MAX) (p : Pid) : Specchio b i (m.signal a.prec p) := by
  cases hm with
  | sveglia _ r _ l he hc hq hprec =>
    exact h.servi hI hmax hq p rfl (by simp [accoda, setCoda, setCount, setSem])

theorem cede {r : Pid} (h : Specchio a i m) (hI : Inv a) (hm : Mossa a (.cede i r q) b)
    (hmax : (a.sem i).count < INT_MAX) (p : Pid) : Specchio b i (m.signal a.prec p) := by
  cases hm with
  | cede _ _ _ l he hc hq hprec =>
    refine h.servi hI hmax hq p (prec_aggiorna DesProc.pronto fun _ => rfl) ?_
    simp [accoda, setCoda, setCount, setSem, setEsecuzione, Astratto.aggiorna]

end Specchio

end Pitos
