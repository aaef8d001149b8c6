import Iqemu64.X2aEntry
import Iqemu64.Transfer

/-!
# Call sites of the host-to-guest code

`X2aSite` is where the CPU state, the lowered guest stack, the saved host registers and the host's
stack arguments lie while the arguments are translated. The code writes to argument registers of the
CPU state and to the guest stack from the counters on, so what it reads stays as it was and what it
has delivered is not touched again.
-/

namespace Iqemu64
open ByteMemory X64

structure X2aSite (L : EnvLayout) where
  env : ℕ
  ctx : ℕ
  sp : ℕ
  stack : ℕ
  aaBytes : ℕ
  xxBytes : ℕ
  env_aligned : env % 16 = 0
  ctx_aligned : ctx % 16 = 0
  sp_aligned : sp % 16 = 0
  sp_top : sp + aaBytes < 2 ^ 64
  stack_top : stack + xxBytes < 2 ^ 64
  area_apart : ∀ o < aaBytes + 16, ¬ (env ≤ sp + o ∧ sp + o < env + L.size)
  ctx_apart : ∀ o < 256, ¬ (env ≤ ctx + o ∧ ctx + o < env + L.size) ∧
    ¬ (sp ≤ ctx + o ∧ ctx + o < sp + aaBytes + 16)
  stack_apart : ∀ o < xxBytes + 16, ¬ (env ≤ stack + o ∧ stack + o < env + L.size) ∧
    ¬ (sp ≤ stack + o ∧ stack + o < sp + aaBytes + 16)

variable {L : EnvLayout}

namespace X2aSite

variable (S : X2aSite L)

def Source (a : ℕ) : Prop :=
  (∃ o < 256, a = S.ctx + o) ∨ ∃ o < S.xxBytes + 16, a = S.stack + o

def Own (al : AaAlloc) (a : ℕ) : Prop :=
  (S.env + 8 * al.gprcount ≤ a ∧ a < S.env + 64) ∨
    (∃ v, al.ssecount ≤ v ∧ v < 8 ∧ S.env + (L.zregs + 256 * v) ≤ a ∧
      a < S.env + (L.zregs + 256 * v) + 16) ∨
    (S.sp + al.stackOffset ≤ a ∧ a < S.sp + S.aaBytes + 16)

def Below (al : AaAlloc) (a : ℕ) : Prop :=
  (S.env ≤ a ∧ a < S.env + 8 * al.gprcount) ∨
    (∃ v < al.ssecount, S.env + (L.zregs + 256 * v) ≤ a ∧ a < S.env + (L.zregs + 256 * v) + 8) ∨
    (S.sp ≤ a ∧ a < S.sp + al.stackOffset)

variable {S}

variable {al : AaAlloc} {a : ℕ}

theorem Source.not_own (h : S.Source a) : ¬ S.Own al a := by
  have hL : L.size = L.zregs + 256 * 32 := rfl
  rintro (⟨h₁, h₂⟩ | ⟨v, h₁, h₂, h₃, h₄⟩ | ⟨h₁, h₂⟩)
  all_goals
    rcases h with ⟨o, ho, rfl⟩ | ⟨o, ho, rfl⟩
    · have := S.ctx_apart o ho
      omega
    · have := S.stack_apart o ho
      omega

theorem Below.not_own (hg : al.gprcount ≤ 8) (hs : al.ssecount ≤ 8)
    (hst : al.stackOffset ≤ S.aaBytes) (h : S.Below al a) : ¬ S.Own al a := by
  have hz := L.zregs_ge
  have hL : L.size = L.zregs + 256 * 32 := rfl
  have hstate : ∀ b, S.sp ≤ b → b < S.sp + S.aaBytes + 16 → ¬ (S.env ≤ b ∧ b < S.env + L.size) := by
    intro b h₁ h₂
    have := S.area_apart (b - S.sp) (by omega)
    rwa [Nat.add_sub_cancel' h₁] at this
  rcases h with ⟨h₁, h₂⟩ | ⟨v, hv, h₁, h₂⟩ | ⟨h₁, h₂⟩ <;>
    rintro (⟨h₃, h₄⟩ | ⟨w, hw, h₃, h₄, h₅⟩ | ⟨h₃, h₄⟩)
  · omega
  · omega
  · have := hstate a (by omega) h₄
    omega
  · omega
  · omega
  · have := hstate a (by omega) h₄
    omega
  · have := hstate a h₁ (by omega)
    omega
  · have := hstate a h₁ (by omega)
    omega
  · omega

theorem Own.mono {al' : AaAlloc} (h : S.Own al' a) (hg : al.gprcount ≤ al'.gprcount)
    (hs : al.ssecount ≤ al'.ssecount) (hst : al.stackOffset ≤ al'.stackOffset) : S.Own al a := by
  rcases h with ⟨h₁, h₂⟩ | ⟨v, h₁, h₂⟩ | ⟨h₁, h₂⟩
  · exact Or.inl ⟨by omega, h₂⟩
  · exact Or.inr (Or.inl ⟨v, by omega, h₂⟩)
  · exact Or.inr (Or.inr ⟨by omega, h₂⟩)

theorem Below.mono {al' : AaAlloc} (h : S.Below al a) (hg : al.gprcount ≤ al'.gprcount)
    (hs : al.ssecount ≤ al'.ssecount) (hst : al.stackOffset ≤ al'.stackOffset) : S.Below al' a := by
  rcases h with ⟨h₁, h₂⟩ | ⟨v, h₁, h₂⟩ | ⟨h₁, h₂⟩
  · exact Or.inl ⟨h₁, by omega⟩
  · exact Or.inr (Or.inl ⟨v, by omega, h₂⟩)
  · exact Or.inr (Or.inr ⟨h₁, by omega⟩)

/-- The arguments leave the general registers from `x8` on alone. -/
theorem xreg_not_own {o : ℕ} (hlo : 64 ≤ o) (hhi : o < 256) : ¬ S.Own {} (S.env + o) := by
  have hz := L.zregs_ge
  have hL : L.size = L.zregs + 256 * 32 := rfl
  rintro (⟨h₁, h₂⟩ | ⟨v, h₁, h₂, h₃, h₄⟩ | ⟨h₁, h₂⟩)
  · omega
  · omega
  · have := S.area_apart (S.env + o - S.sp) (by omega)
    omega

theorem sp_not_own {k : ℕ} (hk : k < 8) : ¬ S.Own {} (S.env + spOffset + k) := by
  rw [Nat.add_assoc]
  exact xreg_not_own (by unfold spOffset; omega) (by unfold spOffset; omega)

end X2aSite

structure X2aInv (S : X2aSite L) (m₀ : Mem) (s : State) : Prop where
  rdi : (s.gpr .rdi).toNat = S.env
  rsi : (s.gpr .rsi).toNat = S.ctx
  r10 : (s.gpr .r10).toNat = S.sp
  r11 : (s.gpr .r11).toNat = S.stack
  mem : ∀ a, ¬ S.Own {} a → s.mem a = m₀ a

def x2aSource (ctx stack : ℕ) (a : ABIArgInfo AReg) (x : ABIArgInfo XReg) (k : ℕ) : ℕ :=
  let reg j := ctx + (x.teGetReg j).elim 0 x64Enum2Offset
  match x.loc, a.loc with
  | .regs _, .regs _ =>
    -- of each half of a split register the code takes the lower one
    if x.teNumOfReg = a.teNumOfReg then reg (k / 8) + k % 8 else reg (k / 8) + k % 4
  | .regs _, .mem _ _ =>
    let stride := if (x.teGetReg 0).any XReg.isXmm then a.size / x.teNumOfReg else 8
    if x.teNumOfReg ≤ 1 ∨ k < stride then reg 0 + k else reg 1 + (k - stride)
  | .mem offset _, .regs _ => stack + offset + 8 * (k / a.regStride) + k % a.regStride
  | .mem offset _, .mem _ _ => stack + offset + k

structure X2aStep (S : X2aSite L) (c : Counters) (p : Placement) (s s' : State) : Prop where
  gpr : ∀ r, r = .rdi ∨ r = .rsi ∨ r = .r10 ∨ r = .r11 → s'.gpr r = s.gpr r
  out : ∀ a, ¬ S.Own c.1 a → s'.mem a = s.mem a
  holds : ∀ k < p.1.size, s'.mem (p.1.guestAddr L S.env S.sp s'.mem k) =
    s.mem (x2aSource S.ctx S.stack p.1 p.2 k)
  pointer : p.1.indirect = true → ∀ k, p.1.guestAddr L S.env S.sp s'.mem k =
    x2aSource S.ctx S.stack p.1 p.2 k

theorem X2aStep.inv {S : X2aSite L} {m₀ : Mem} {c : Counters} {p : Placement} {s s' : State}
    (h : X2aStep S c p s s') (hinv : X2aInv S m₀ s) : X2aInv S m₀ s' := by
  refine ⟨?_, ?_, ?_, ?_, fun a ha => ?_⟩
  · rw [h.gpr .rdi (by tauto), hinv.rdi]
  · rw [h.gpr .rsi (by tauto), hinv.rsi]
  · rw [h.gpr .r10 (by tauto), hinv.r10]
  · rw [h.gpr .r11 (by tauto), hinv.r11]
  · rw [h.out a fun h' => ha (h'.mono (Nat.zero_le _) (Nat.zero_le _) (Nat.zero_le _))]
    exact hinv.mem a ha

end Iqemu64
