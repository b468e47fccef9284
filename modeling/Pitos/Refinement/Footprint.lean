import Pitos.Refinement.Registers

/-!
# What a call writes

The bytes of memory that a `ki_` function writes for its caller (`Chiamata.Scrive`): the variables
to which the arguments point, the stacks of a new process, and, for `__signalrespin`, words of the
frame and of the stack of the caller. Whatever else the function does, it does in the kernel's own
variables. An activation writes the context and the stacks of one descriptor, the one that the
search has found (`kiActivatePLevel_descrittori`).
-/

namespace Pitos

open Lib

/-! ## The stacks of a new process -/

/-- The bytes of the frames on the stacks of a new process. -/
def PileNuove (stk : Fin 3 → Word) (b : Word) : Prop :=
  Mem.Within (stk 0 - 20) 20 b ∨ Mem.Within (stk 2 - 8) 8 b

theorem pilaIniziale_changes (s : Kernel) (f h : Word) (level : Int) (stk : Fin 3 → Word) :
    Mem.ChangesAt (PileNuove stk) s.mem (s.pilaIniziale f h level stk) := by
  have hsys : ∀ (k : Word) (b : Word), k.toNat ≤ 16 → Mem.Within (stk 0 - 20 + k) 4 b →
      PileNuove stk b := fun k b hk hb => Or.inl (hb.of_offset (by omega))
  have hsys0 : ∀ b, Mem.Within (stk 0 - 20) 4 b → PileNuove stk b := fun b hb =>
    Or.inl (hb.mono (by decide))
  unfold Kernel.pilaIniziale
  simp only
  split
  · refine (((((((Mem.ChangesAt.refl _).write32 ?_).write32 ?_).write32 hsys0).write32
      fun b => hsys 4 b (by decide)).write32 fun b => hsys 8 b (by decide)).write32
      fun b => hsys 12 b (by decide)).write32 fun b => hsys 16 b (by decide)
    · exact fun b hb => Or.inr (hb.mono (by decide))
    · exact fun b hb => Or.inr (hb.of_offset (by decide))
  · exact ((((((Mem.ChangesAt.refl _).write32 hsys0).write32
      fun b => hsys 4 b (by decide)).write32 fun b => hsys 8 b (by decide)).write32
      fun b => hsys 12 b (by decide)).write32 fun b => hsys 16 b (by decide))

/-- The state when the search has found the descriptor of `q`. -/
def Kernel.assegna (s : Kernel) (idx : Word) (q : Pid) : Kernel :=
  { s with procCount := int32 (s.procCount + 1), mem := s.mem.write32 idx (BitVec.ofNat 32 q) }

/-- The rest of an activation that finds a free descriptor. -/
theorem kiActivatePLevel_libero {s : Kernel} {q : Pid} (hlt : s.procCount ≠ MAXPROCS)
    (hq : s.cercaLibero = some q) (f k : Word) (prec level : Int) (idx risu : Word)
    (stk : Fin 3 → Word) :
    kiActivatePLevel f k prec level idx risu stk s =
      ((s.assegna idx q).prepara (some q) f k prec (clamp level 0 3) stk).inserisciPronti (some q) >>=
        fun s => .ok { s with mem := s.mem.write8 risu 1 } := by
  have hq' : ({ s with procCount := int32 (s.procCount + 1) } : Kernel).cercaLibero = some q := hq
  simp only [kiActivatePLevel, hlt, if_false, hq']
  rfl

/-! ## The bytes -/

/-- The bytes that the call writes through its arguments when it is executed in `s`. -/
def Chiamata.Scrive (c : Chiamata) (s : Kernel) (b : Word) : Prop :=
  match c with
  | .activateP _ _ _ idx risu stk => Mem.Within idx 4 b ∨ b = risu ∨ PileNuove stk b
  | .semIni _ idx risu => Mem.Within idx 4 b ∨ b = risu
  | .sysGetOsName p len => len ≠ 0 ∧ p ≠ 0 ∧ Mem.Within p (((len - 1) % 2 ^ 32).toNat + 1) b
  | .getTick low hi _ _ => Mem.Within low 4 b ∨ Mem.Within hi 4 b
  | .getPri q | .getBasepri q | .getPid q | .malloc _ q _ => Mem.Within q 4 b
  | .signalrespin =>
    let sysesp := (s.des s.esecuzione).context iESP
    Mem.Within (sysesp + 12) 4 b ∨ Mem.Within (s.mem.read32 (sysesp + 12) + 4) 4 b
  | _ => False

section

variable {s t : Kernel}

/-- The induction is on the turns: each writes the first byte of the piece that is left. -/
theorem copiaNome_changes (n : Nat) (m : Mem) (p q : Word) (hn : n < 2 ^ 32) :
    Mem.ChangesAt (Mem.Within p n) m (copiaNome n m p q).1 ∧
      (copiaNome n m p q).2 = p + BitVec.ofNat 32 n := by
  induction n generalizing m p q with
  | zero =>
    have h0 : p + BitVec.ofNat 32 0 = p := by bv_omega
    exact ⟨Mem.ChangesAt.refl m, h0.symm⟩
  | succ n ih =>
    obtain ⟨hch, hp⟩ := ih (m.write8 p (m q)) (p + 1) (q + 1) (by omega)
    have hfirst : Mem.ChangesAt (Mem.Within p (n + 1)) m (m.write8 p (m q)) :=
      (Mem.ChangesAt.refl m).write8 (Mem.Within.self (Nat.succ_pos n))
    have h1 : (1 : Word).toNat = 1 := rfl
    refine ⟨hfirst.trans (hch.mono fun b hb => hb.of_offset (by omega)), ?_⟩
    rw [copiaNome, hp]
    bv_omega

theorem kiSysGetOsName_changes (p : Word) (len : Int) (s : Kernel) :
    Mem.ChangesAt ((Chiamata.sysGetOsName p len).Scrive s) s.mem (kiSysGetOsName p len s).mem := by
  unfold kiSysGetOsName
  by_cases h : len = 0 ∨ p = 0
  · rw [if_pos h]
    exact Mem.ChangesAt.refl _
  · rw [if_neg h]
    obtain ⟨hlen, hp⟩ := not_or.mp h
    have hlt : ((len - 1) % 2 ^ 32).toNat < 2 ^ 32 := by omega
    obtain ⟨hch, hend⟩ := copiaNome_changes ((len - 1) % 2 ^ 32).toNat s.mem p s.link.osName hlt
    generalize copiaNome ((len - 1) % 2 ^ 32).toNat s.mem p s.link.osName = c at hch hend
    obtain ⟨y, e⟩ := c
    obtain rfl : e = _ := hend
    refine Mem.ChangesAt.write8 (hch.mono fun b hb => ?_) ?_
    · exact ⟨hlen, hp, hb.mono (Nat.le_succ _)⟩
    · refine ⟨hlen, hp, ?_⟩
      have hsub : p + BitVec.ofNat 32 ((len - 1) % 2 ^ 32).toNat - p =
          BitVec.ofNat 32 ((len - 1) % 2 ^ 32).toNat := by bv_omega
      unfold Mem.Within
      rw [hsub, BitVec.toNat_ofNat]
      omega

theorem kiActivatePLevel_changes {f k : Word} {prec level : Int} {idx risu : Word}
    {stk : Fin 3 → Word} (h : kiActivatePLevel f k prec level idx risu stk s = .ok t) :
    Mem.ChangesAt ((Chiamata.activateP f k prec idx risu stk).Scrive s) s.mem t.mem := by
  unfold kiActivatePLevel at h
  simp only at h
  split at h
  · obtain rfl := Except.ok.inj h
    exact (Mem.ChangesAt.refl _).write8 (Or.inr (Or.inl rfl))
  · obtain ⟨s₁, h₁, h₂⟩ := bind_ok h
    obtain rfl := Except.ok.inj h₂
    refine Mem.ChangesAt.write8 ?_ (Or.inr (Or.inl rfl))
    rw [(inserisciPronti_quieto h₁).mem]
    refine Mem.ChangesAt.trans ?_
      ((pilaIniziale_changes _ f k _ stk).mono fun b hb => Or.inr (Or.inr hb))
    simp only [Kernel.aggiorna]
    split
    · exact (Mem.ChangesAt.refl _).write32 fun b hb => Or.inl hb
    · exact Mem.ChangesAt.refl _

theorem esegui_scrive {c : Chiamata} (h : esegui c s = .ok t) :
    Mem.ChangesAt (c.Scrive s) s.mem t.mem := by
  cases c with
  | activateP f k prec idx risu stk => exact kiActivatePLevel_changes h
  | terminateP => exact fun b _ => congrFun (kiTerminateP_quieto h).mem b
  | semIni valore idx risu =>
    obtain rfl := Except.ok.inj h
    unfold kiSemIni
    split
    · exact (Mem.ChangesAt.refl _).write8 (Or.inr rfl)
    · exact (Mem.ChangesAt.refl _).write32 fun b hb => Or.inl hb
  | semWait hsem => exact fun b _ => congrFun (kiSemWait_quieto h).mem b
  | semSignal hsem => exact fun b _ => congrFun (kiSemSignal_quieto h).mem b
  | sysGetOsName p len =>
    obtain rfl := Except.ok.inj h
    exact kiSysGetOsName_changes p len s
  | getTick low hi tscLow tscHi =>
    obtain rfl := Except.ok.inj h
    exact ((Mem.ChangesAt.refl _).write32 fun b hb => Or.inl hb).write32 fun b hb => Or.inr hb
  | delay n a => exact fun b _ => congrFun (attendi_quieto h).mem b
  | getPri q =>
    obtain rfl := Except.ok.inj h
    exact (Mem.ChangesAt.refl _).write32 fun b hb => hb
  | getBasepri q =>
    obtain rfl := Except.ok.inj h
    exact (Mem.ChangesAt.refl _).write32 fun b hb => hb
  | getPid q =>
    obtain rfl := Except.ok.inj h
    exact (Mem.ChangesAt.refl _).write32 fun b hb => hb
  | signal sig func =>
    obtain rfl := Except.ok.inj h
    unfold kiSignal
    split <;> exact Mem.ChangesAt.refl _
  | raise sig =>
    obtain rfl := Except.ok.inj h
    unfold kiRaise
    split <;> exact Mem.ChangesAt.refl _
  | signalrespin =>
    obtain rfl := Except.ok.inj h
    exact ((Mem.ChangesAt.refl _).write32 fun b hb => Or.inr hb).write32 fun b hb => Or.inl hb
  | print buf page =>
    obtain rfl := Except.ok.inj h
    exact Mem.ChangesAt.refl _
  | free ptr =>
    obtain rfl := Except.ok.inj h
    exact Mem.ChangesAt.refl _
  | malloc size p r =>
    obtain rfl := Except.ok.inj h
    exact (Mem.ChangesAt.refl _).write32 fun b hb => hb

/-! ## The descriptors -/

@[simp] theorem registriIniziali_iESP (esp : Word) (c : Fin NUMREG → Word) :
    registriIniziali esp c iESP = esp := rfl

/-- The context and the stacks of a descriptor are as before, or they are those of the new
process. -/
theorem kiActivatePLevel_descrittori {f k : Word} {prec level : Int} {idx risu : Word}
    {stk : Fin 3 → Word} (h : kiActivatePLevel f k prec level idx risu stk s = .ok t) (r : DesPtr) :
    ((t.des r).context = (s.des r).context ∧ (t.des r).stk = (s.des r).stk) ∨
      (r = s.cercaLibero ∧ (t.des r).context iESP = stk 0 - 20 ∧ (t.des r).stk = stk) := by
  unfold kiActivatePLevel at h
  simp only at h
  split at h
  · obtain rfl := Except.ok.inj h
    exact Or.inl ⟨rfl, rfl⟩
  · obtain ⟨s₁, h₁, h₂⟩ := bind_ok h
    obtain rfl := Except.ok.inj h₂
    have hq := (inserisciPronti_quieto h₁).conservati r
    show ((s₁.des r).context = _ ∧ (s₁.des r).stk = _) ∨ (_ ∧ (s₁.des r).context iESP = _ ∧
      (s₁.des r).stk = _)
    rw [hq.context, hq.stk]
    have hlibero : ({ s with procCount := int32 (s.procCount + 1) } : Kernel).cercaLibero =
      s.cercaLibero := rfl
    rw [hlibero]
    by_cases hr : r = s.cercaLibero
    · refine Or.inr ⟨hr, ?_, ?_⟩
      · simp [Kernel.prepara, Kernel.aggiorna, hr]
      · simp [Kernel.prepara, Kernel.aggiorna, hr]
    · apply Or.inl
      simp only [Kernel.prepara, Kernel.aggiorna, Function.update_of_ne hr]
      split <;> exact ⟨rfl, rfl⟩

/-- The other descriptors keep what belongs to their programs. -/
theorem kiActivatePLevel_altri {f k : Word} {prec level : Int} {idx risu : Word}
    {stk : Fin 3 → Word} (h : kiActivatePLevel f k prec level idx risu stk s = .ok t) {r : DesPtr}
    (hr : r ≠ s.cercaLibero) : StessiRegistri (s.des r) (t.des r) := by
  unfold kiActivatePLevel at h
  simp only at h
  split at h
  · obtain rfl := Except.ok.inj h
    exact .refl _
  · obtain ⟨s₁, h₁, h₂⟩ := bind_ok h
    obtain rfl := Except.ok.inj h₂
    apply StessiRegistri.trans _ ((inserisciPronti_quieto h₁).conservati r)
    have hlibero : ({ s with procCount := int32 (s.procCount + 1) } : Kernel).cercaLibero =
      s.cercaLibero := rfl
    rw [hlibero]
    simp only [Kernel.prepara, Kernel.aggiorna, Function.update_of_ne hr]
    split <;> exact .refl _

end

end Pitos
