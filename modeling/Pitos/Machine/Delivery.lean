import Pitos.Machine.Inside

/-!
# The delivery of signals

When the pending signals of the current process are looked at, one of them may be put on its user
stack (`Consegna`). `Prosegue` says with which registers and which memory a process goes on that
has got a number of deliveries, none or one, since it left the CPU.
-/

namespace Pitos

open Lib

/-- Code that a signal has interrupted: where it goes on, its stack pointer, and the memory. -/
structure Attivazione where
  eip : Word
  esp : Word
  mem : Mem

def Kernel.attivazione (s : Kernel) (p : Pid) : Attivazione where
  eip := s.mem.read32 ((s.des (some p)).context iESP)
  esp := s.mem.read32 ((s.des (some p)).context iESP + 12)
  mem := s.mem

/-- What is delivered to `p` when the signals of the current process are looked at in `s`. -/
inductive Kernel.Consegna (s : Kernel) (p : Pid) : List Attivazione → Prop
  | nessuna (h : s.esecuzione = some p → ∀ j fx, ¬ s.Gestito p j fx) : Consegna s p []
  | una {j : Fin SIGCOUNT} {fx : Word} (he : s.esecuzione = some p) (h : s.Gestito p j fx) :
      Consegna s p [s.attivazione p]

/-- The words of a signal for another process are put outside `Q`. -/
def Kernel.SegnaliFuori (s : Kernel) (p : Pid) (Q : Word → Prop) : Prop :=
  ∀ q j fx, q ≠ p → s.esecuzione = some q → s.Gestito q j fx →
    ∀ b, Mem.Within (s.mem.read32 ((s.des (some q)).context iESP + 12) - 12) 12 b → ¬ Q b

/-- A process with the registers `r` and the memory `x` has got the deliveries `cs`: it goes on
with the registers `r'` and the memory `y`. Before a delivery the bytes of `V` have stayed, and
after it those of `U`. -/
inductive Prosegue (V U : Word → Prop) (r : Registri) (x : Mem) :
    List Attivazione → Registri → Mem → Prop
  | piano {y : Mem} (h : ∀ b, V b → y b = x b) : Prosegue V U r x [] r y
  | gestore {a : Attivazione} {fx : Word} {y : Mem} (heip : a.eip = r.eip) (hesp : a.esp = r.esp)
      (hmem : ∀ b, V b → a.mem b = x b) (hword : y.read32 (r.esp - 4) = r.eip)
      (h : ∀ b, U b → ¬ Mem.Within (r.esp - 12) 12 b → y b = a.mem b) :
      Prosegue V U r x [a] { r with eip := fx, esp := r.esp - 12 } y

namespace Prosegue

variable {U V W : Word → Prop} {r r' : Registri} {x x' y y' : Mem} {cs : List Attivazione}

/-- A delivery leaves `EAX` alone. -/
theorem eax (h : Prosegue V U r x cs r' y) : r'.eax = r.eax := by
  cases h <;> rfl

theorem mono (h : Prosegue W U r x cs r' y) (hVW : ∀ b, V b → W b) : Prosegue V U r x cs r' y := by
  cases h with
  | piano h => exact .piano fun b hb => h b (hVW b hb)
  | gestore heip hesp hmem hword h =>
    exact .gestore heip hesp (fun b hb => hmem b (hVW b hb)) hword h

theorem prima (h : Prosegue V U r x cs r' y) (hx : ∀ b, V b → x b = x' b) :
    Prosegue V U r x' cs r' y := by
  cases h with
  | piano h => exact .piano fun b hb => (h b hb).trans (hx b hb)
  | gestore heip hesp hmem hword h =>
    exact .gestore heip hesp (fun b hb => (hmem b hb).trans (hx b hb)) hword h

/-- The words of the signal are among the bytes that stay. -/
theorem dopo (h : Prosegue V U r x cs r' y) (hy : ∀ b, U b → y' b = y b) (hVU : ∀ b, V b → U b)
    (hposto : ∀ a ∈ cs, ∀ b, Mem.Within (a.esp - 12) 12 b → U b) : Prosegue V U r x cs r' y' := by
  cases h with
  | piano h => exact .piano fun b hb => (hy b (hVU b hb)).trans (h b hb)
  | gestore heip hesp hmem hword h =>
    refine .gestore heip hesp hmem ?_ fun b hb hb' => (hy b hb).trans (h b hb hb')
    have h8 : r.esp - 4 = r.esp - 12 + 8 := by bv_omega
    rw [← hword]
    refine Mem.read32_within fun b hb => hy b (hposto _ (List.mem_singleton.mpr rfl) b ?_)
    rw [hesp]
    rw [h8] at hb
    exact hb.of_offset (by decide)

end Prosegue

section Segnali

variable {p q : Pid} {Q : Word → Prop} {s t : Kernel} {r : Registri} {e : Word}

theorem addApc_changes (p : Pid) (fx param : Word) (s : Kernel) :
    Mem.ChangesAt (fun b =>
      Mem.Within (s.mem.read32 ((s.des (some p)).context iESP + 12) - 12) 12 b ∨
        SuTelaio ((s.des (some p)).context iESP) b) s.mem (addApc (some p) fx param s).mem := by
  unfold addApc
  simp only
  refine (((((Mem.ChangesAt.refl _).write32 ?_).write32 ?_).write32 ?_).write32 ?_).write32 ?_
  · exact fun b hb => Or.inl (hb.mono (by decide))
  · exact fun b hb => Or.inl (hb.of_offset (by decide))
  · exact fun b hb => Or.inl (hb.of_offset (by decide))
  · exact fun b hb => Or.inr (hb.mono (by decide))
  · exact fun b hb => Or.inr (hb.of_offset (by decide))

/-- Without a handler no memory is written. -/
theorem handlesignals_mem (he : s.esecuzione = some q) (hg : ∀ j fx, ¬ s.Gestito q j fx)
    (h : handlesignals s = .ok t) : t.mem = s.mem := by
  obtain ⟨j, hj, rfl | ⟨_, _, hterm⟩ | ⟨hign, hdfl, herr, _⟩⟩ := handlesignals_ok h
  · rfl
  · exact (kiTerminateP_quieto hterm).mem
  · rw [he] at hj hign hdfl herr
    exact absurd ⟨hj, rfl, hign, hdfl, herr⟩ (hg j _)

/-- The pending signals of the current process `q`. -/
theorem pendenti_vie (he : s.esecuzione = some q)
    (h : (if (s.des s.esecuzione).sigMask ≠ 0 then handlesignals s else .ok s) = .ok t) :
    (∃ j fx, s.Gestito q j fx ∧ t = addApc (some q) fx (BitVec.ofNat 32 j.val)
      (s.aggiorna (some q) (DesProc.preso j))) ∨
        (∀ j fx, ¬ s.Gestito q j fx) ∧ t.mem = s.mem := by
  by_cases hg : ∃ j fx, s.Gestito q j fx
  · obtain ⟨j, fx, hg⟩ := hg
    rw [he, if_pos hg.mask, handlesignals_gestito hg he] at h
    exact Or.inl ⟨j, fx, hg, (Except.ok.inj h).symm⟩
  · have hg' : ∀ j fx, ¬ s.Gestito q j fx := fun j fx h => hg ⟨j, fx, h⟩
    refine Or.inr ⟨hg', ?_⟩
    split at h
    · exact handlesignals_mem he hg' h
    · obtain rfl := Except.ok.inj h
      rfl

theorem aggiorna_preso_context (s : Kernel) (x : DesPtr) (j : Fin SIGCOUNT) (y : DesPtr) :
    ((s.aggiorna x (DesProc.preso j)).des y).context = (s.des y).context :=
  (Intatti.aggiorna s x (f := DesProc.preso j) (fun _ => ⟨rfl, rfl⟩) y).1

/-- Nothing is delivered to `p`. -/
theorem pendenti_serba (he : s.esecuzione = some q)
    (h : (if (s.des s.esecuzione).sigMask ≠ 0 then handlesignals s else .ok s) = .ok t)
    (hc : s.Consegna p []) (hl : s.Lontani p Q) (hs : s.SegnaliFuori p Q) : s.Serba p Q t := by
  refine .of_intatti (pendenti_intatti h) fun b hb => ?_
  rcases pendenti_vie he h with ⟨j, fx, hg, rfl⟩ | ⟨-, hm⟩
  · have hqp : q ≠ p := by
      rintro rfl
      cases hc with
      | nessuna hno => exact hno he j fx hg
    apply addApc_changes q fx _ (s.aggiorna (some q) (DesProc.preso j)) b
    intro hb'
    rw [aggiorna_preso_context] at hb'
    rcases hb' with hb' | hb'
    · exact hs q j fx hqp he hg b hb' hb
    · have h24 : (s.des (some q)).context iESP =
          (s.des (some q)).context iESP - 24 + 24 := by bv_omega
      rw [h24] at hb'
      exact hl.esp q hqp b (hb'.of_offset (by decide)) hb
  · rw [hm]

/-- A signal is delivered to `p`. -/
theorem pendenti_consegna {a : Attivazione} (hs : Sospeso p r e s) (hcs : r.cs &&& 3 ≠ 0)
    (h : (if (s.des s.esecuzione).sigMask ≠ 0 then handlesignals s else .ok s) = .ok t)
    (hc : s.Consegna p [a]) (hf : Fuori (a.esp - 12) 12 e) :
    a = ⟨r.eip, r.esp, s.mem⟩ ∧ ∃ fx param, Consegnato p r e fx param s t := by
  cases hc with
  | una he hg =>
    have ha : s.attivazione p = ⟨r.eip, r.esp, s.mem⟩ := by
      unfold Kernel.attivazione
      rw [hs.esp, hs.telaio.eip, hs.telaio.esp hcs]
    rw [ha] at hf
    rcases pendenti_vie he h with ⟨j, fx, -, rfl⟩ | ⟨hno, -⟩
    · have hs' : Sospeso p r e (s.aggiorna (some p) (DesProc.preso j)) :=
        hs.congr (aggiorna_preso_context s _ j _) fun _ _ => rfl
      have hcons := addApc_consegnato fx (BitVec.ofNat 32 j.val) hs' hcs hf
      exact ⟨ha, fx, _, hcons.sospeso, hcons.ritorno, hcons.parametro, hcons.eip, hcons.altrove⟩
    · exact absurd hg (hno _ _)

end Segnali

end Pitos
