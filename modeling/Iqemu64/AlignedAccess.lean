import Iqemu64.X2aReturn

/-!
# Aligned vector accesses of the bridges

The three code generators that move vector registers with aligned instructions rely on the offsets of
AArch64 registers and stack slots. Vector registers are at multiples of 16 in the CPU state, but general
registers and stack slots are not.
-/

namespace Iqemu64
open ByteMemory X64

/-- The aligned accesses of the code for a signature are at multiples of 16 exactly when no vector
register of an argument or of the result stands for an odd general register or for an odd eightbyte
of the guest stack. -/
theorem bridge_alignedAccesses_iff (σ : Signature) (r : Option FlatType)
    (hret : σ.ret = ResultType.ofFlat r) :
    ∃ aa xx, σ.fnInfos = some (aa, xx) ∧
      ∀ (L : EnvLayout) (E : BridgeExternals) (s₁ s₂ s₃ : State), A2xReady L aa xx s₁ →
        X2aReady L aa xx s₂ → X2aExitReady L r xx.rinfo s₃ →
        ∃ a2xEntry x2aEntry x2aExit, abiA2xEntryTranslation L aa xx = some a2xEntry ∧
          abiX2aEntryTranslation L aa xx = some x2aEntry ∧
          abiX2aExitTranslation L aa xx = some x2aExit ∧
          ((AlignedAccesses E a2xEntry s₁ ∧ AlignedAccesses E x2aEntry s₂ ∧
              AlignedAccesses E x2aExit s₃) ↔
            (∀ (i : ℕ) (a : ABIArgInfo AReg) (x : ABIArgInfo XReg), aa.ainfo[i]? = some a →
              xx.ainfo[i]? = some x → VectorsAligned a x) ∧
            VectorsAligned aa.rinfo xx.rinfo) := by
  refine ⟨σ.aaInfo, σ.xxInfo, σ.fnInfos_eq, fun L E s₁ s₂ s₃ h₁ h₂ h₃ => ?_⟩
  have hr : RetPlaced r σ.aaInfo.rinfo σ.xxInfo.rinfo := by
    rw [Signature.aaInfo, Signature.xxInfo, hret]
    exact retPlaced_ofFlat r
  obtain ⟨code₁, hcode₁, halign₁, -⟩ := h₁.run_spec E
  obtain ⟨code₂, hcode₂, halign₂, -⟩ := h₂.run_spec E
  obtain ⟨code₃, hcode₃, halign₃, -⟩ := x2aExit_spec E σ.aaInfo σ.xxInfo hr h₃
  refine ⟨code₁, code₂, code₃, hcode₁, hcode₂, hcode₃, ?_⟩
  rw [σ.forall_places (Q := VectorsAligned), ← run_ne_none_iff, ← run_ne_none_iff, ← run_ne_none_iff,
    halign₁, halign₂, halign₃]
  exact ⟨fun h => h.2, fun h => ⟨h.1, h⟩⟩

theorem bridge_alignedAccesses_mixed :
    ∃ a2xEntry x2aEntry x2aExit,
      abiA2xEntryTranslation .least mixedSignature.aaInfo mixedSignature.xxInfo = some a2xEntry ∧
      abiX2aEntryTranslation .least mixedSignature.aaInfo mixedSignature.xxInfo = some x2aEntry ∧
      abiX2aExitTranslation .least mixedSignature.aaInfo mixedSignature.xxInfo = some x2aExit ∧
      AlignedAccesses idleExternals a2xEntry idleState ∧
      AlignedAccesses idleExternals x2aEntry hostCallState ∧
      AlignedAccesses idleExternals x2aExit hostReturnState := by
  obtain ⟨aa, xx, hinfos, h⟩ := bridge_alignedAccesses_iff mixedSignature none rfl
  obtain ⟨rfl, rfl⟩ := Prod.mk.inj (Option.some.inj (mixedSignature.fnInfos_eq.symm.trans hinfos))
  obtain ⟨code₁, code₂, code₃, hcode₁, hcode₂, hcode₃, hiff⟩ := h .least idleExternals idleState
    hostCallState hostReturnState (a2xReady_idle (by decide) (by decide) (by decide))
    (x2aReady_hostCall (by decide) (by decide)) x2aExitReady_hostReturn
  refine ⟨code₁, code₂, code₃, hcode₁, hcode₂, hcode₃, hiff.mpr ⟨?_, by decide⟩⟩
  rw [mixedSignature.forall_places (Q := VectorsAligned)]
  decide

/-- Two structs of four doubles take the vector registers of AArch64, so two doubles after them are on
the guest stack, the second one at offset 8. -/
def rectsSignature : Signature where
  ret := .void
  args := [.struct .double [.double, .double, .double], .struct .double [.double, .double, .double],
    .scalar .double, .scalar .double]
  nfixed := 0
  nfixed_le := Nat.zero_le _

theorem bridge_alignedAccesses_rects : ∃ aa xx code, rectsSignature.fnInfos = some (aa, xx) ∧
    X2aReady .least aa xx hostCallState ∧ abiX2aEntryTranslation .least aa xx = some code ∧
    ¬ AlignedAccesses idleExternals code hostCallState := by
  have hready : X2aReady .least rectsSignature.aaInfo rectsSignature.xxInfo hostCallState :=
    x2aReady_hostCall (by decide) (by decide)
  obtain ⟨code, hcode, halign, -⟩ := hready.run_spec idleExternals
  refine ⟨_, _, code, rectsSignature.fnInfos_eq, hready, hcode, ?_⟩
  rw [← run_ne_none_iff, halign]
  decide

end Iqemu64
