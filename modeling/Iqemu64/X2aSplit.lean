import Iqemu64.X2aArg

/-!
# Single-precision aggregates in the host-to-guest code

One or two vector registers of the host go into two to four registers of the guest. The shift that
should bring the upper half of a word down has 32-bit operand size, where a count of 32 is zero, so
both registers of a pair get the lower half.
-/

namespace Iqemu64
open ByteMemory X64 List State

variable {L : EnvLayout} {S : X2aSite L} {s s₁ s₂ : State} {v : ℕ} {src : ℕ → ℕ} {js js' : List ℕ}

def X2aSite.Vector (S : X2aSite L) (v b : ℕ) : Prop :=
  S.env + vectorOffset L v ≤ b ∧ b < S.env + vectorOffset L v + 8

structure X2aHalves (S : X2aSite L) (v : ℕ) (src : ℕ → ℕ) (js : List ℕ) (s s' : State) : Prop where
  gpr : ∀ r, r ≠ .rax → s'.gpr r = s.gpr r
  out : ∀ b, (∀ j ∈ js, ¬ S.Vector (v + j) b) → s'.mem b = s.mem b
  half : ∀ j ∈ js, ∀ i < 4, s'.mem (S.env + vectorOffset L (v + j) + i) = s.mem (src j + i)

theorem X2aHalves.append (h₁ : X2aHalves S v src js s s₁) (h₂ : X2aHalves S v src js' s₁ s₂)
    (hne : ∀ j ∈ js, ∀ j' ∈ js', j ≠ j')
    (hsrc : ∀ j' ∈ js', ∀ i < 4, ∀ j ∈ js, ¬ S.Vector (v + j) (src j' + i)) :
    X2aHalves S v src (js ++ js') s s₂ := by
  refine ⟨fun r hr => (h₂.gpr r hr).trans (h₁.gpr r hr), fun b hb => ?_, fun j hj i hi => ?_⟩
  · rw [h₂.out b fun j hj => hb j (mem_append_right _ hj),
      h₁.out b fun j hj => hb j (mem_append_left _ hj)]
  · rcases mem_append.mp hj with hj | hj
    · rw [h₂.out _ fun j' hj' hv => ?_, h₁.half j hj i hi]
      have := hne j hj j' hj'
      unfold X2aSite.Vector vectorOffset at hv
      omega
    · rw [h₂.half j hj i hi]
      exact h₁.out _ (hsrc j hj i hi)

/-- A shift by 32 of a 32-bit operand only clears the upper half. -/
theorem toNat_shr32 (w : BitVec 64) :
    ((w.setWidth 32 >>> (32 % 32)).setWidth 64).toNat = w.toNat % 256 ^ 4 := by
  have hlt := w.isLt
  simp only [Nat.mod_self, BitVec.ushiftRight_zero, BitVec.toNat_setWidth]
  omega

theorem run_x2aSplit (E : BridgeExternals) (src : ℕ → ℕ) (hrdi : (s.gpr .rdi).toNat = S.env)
    (hrsi : (s.gpr .rsi).toNat = S.ctx) (x : XReg) {j : ℕ}
    (hsrc : src j = S.ctx + x64Enum2Offset x) (hsrc' : src (j + 1) = S.ctx + x64Enum2Offset x) :
    ∃ s', run E (x2aSplit x (vectorOffset L (v + j)) (vectorOffset L (v + (j + 1)))) s = some s' ∧
      X2aHalves S v src [j, j + 1] s s' := by
  have hfar : vectorOffset L (v + (j + 1)) = vectorOffset L (v + j) + 256 := by
    unfold vectorOffset
    omega
  simp only [x2aSplit, run_cons, run_nil, Insn.step, Option.bind_some, ea, setGpr_gpr,
    setGpr_mem, setMem_gpr, setMem_mem, reduceCtorEq, if_false, if_true, hrdi, hrsi,
    toNat_shr32, toNat_ofNat_loadWord _ _ _ (le_refl 8)]
  refine ⟨_, rfl, fun r hr => by simp [hr], fun b hb => ?_, ?_⟩
  · have h₀ := hb j (by simp)
    have h₁ := hb (j + 1) (by simp)
    unfold X2aSite.Vector at h₀ h₁
    simp only [setMem_mem]
    rw [Mem.storeWord_outside _ _ _ _ _ (by omega), Mem.storeWord_outside _ _ _ _ _ (by omega)]
  · have hbyte : ∀ i < 4, byteAt (s.mem.loadWord (S.ctx + x64Enum2Offset x) 8) i =
        s.mem (S.ctx + x64Enum2Offset x + i) := fun i hi => Mem.byteAt_loadWord _ _ 8 i (by omega)
    intro j' hj' i hi
    rcases mem_pair.mp hj' with rfl | rfl
    · simp only [setMem_mem]
      rw [Mem.storeWord_outside _ _ _ _ _ (by omega), Mem.storeWord_inside _ _ _ _ i (by omega), hsrc,
        hbyte i hi]
    · simp only [setMem_mem]
      rw [Mem.storeWord_inside _ _ _ _ i (by omega), byteAt_mod _ 4 i hi, hsrc', hbyte i hi]

theorem run_x2aLast (E : BridgeExternals) (src : ℕ → ℕ) (hrdi : (s.gpr .rdi).toNat = S.env)
    (hrsi : (s.gpr .rsi).toNat = S.ctx) (x : XReg) {j : ℕ}
    (hsrc : src j = S.ctx + x64Enum2Offset x) :
    ∃ s', run E [.ld .rax .rsi (x64Enum2Offset x), .st .rax .rdi (vectorOffset L (v + j))] s = some s' ∧
      X2aHalves S v src [j] s s' := by
  simp only [run_cons, run_nil, Insn.step, Option.bind_some, ea, setGpr_gpr,
    setGpr_mem, reduceCtorEq, if_false, if_true, hrdi, hrsi,
    toNat_ofNat_loadWord _ _ _ (le_refl 8)]
  refine ⟨_, rfl, fun r hr => by simp [hr], fun b hb => ?_, fun j' hj' i hi => ?_⟩
  · have h₀ := hb j (by simp)
    unfold X2aSite.Vector at h₀
    simp only [setMem_mem]
    exact Mem.storeWord_outside _ _ _ _ _ (by omega)
  · obtain rfl := mem_singleton.mp hj'
    simp only [setMem_mem]
    rw [Mem.storeWord_inside _ _ _ _ i (by omega), hsrc]
    exact Mem.byteAt_loadWord _ _ 8 i (by omega)

section Concat
variable {size n elems : ℕ}

theorem x2aConcat_two : x2aConcat L [.xmm n] (aaInRegs .q v 2 size) =
    some (x2aSplit (.xmm n) (vectorOffset L (v + 0)) (vectorOffset L (v + (0 + 1)))) := by
  obtain ⟨h₀, hc₀⟩ := offset_aaInRegs (L := L) (v := v) size (show 0 < 2 by norm_num)
  obtain ⟨h₁, hc₁⟩ := offset_aaInRegs (L := L) (v := v) size (show 1 < 2 by norm_num)
  simp only [x2aConcat, h₀, h₁, hc₀, hc₁, teNumOfReg_aaInRegs]
  exact if_pos ⟨rfl, trivial, by omega⟩

theorem x2aConcat_three : x2aConcat L [.xmm n, .xmm (n + 1)] (aaInRegs .q v 3 size) =
    some (x2aSplit (.xmm n) (vectorOffset L (v + 0)) (vectorOffset L (v + (0 + 1))) ++
      [.ld .rax .rsi (x64Enum2Offset (.xmm (n + 1))), .st .rax .rdi (vectorOffset L (v + 2))]) := by
  obtain ⟨h₀, hc₀⟩ := offset_aaInRegs (L := L) (v := v) size (show 0 < 3 by norm_num)
  obtain ⟨h₁, hc₁⟩ := offset_aaInRegs (L := L) (v := v) size (show 1 < 3 by norm_num)
  obtain ⟨h₂, hc₂⟩ := offset_aaInRegs (L := L) (v := v) size (show 2 < 3 by norm_num)
  simp only [x2aConcat, h₀, h₁, h₂, hc₀, hc₁, hc₂, teNumOfReg_aaInRegs, XReg.code]
  exact if_pos ⟨rfl, by omega, by omega, by omega⟩

theorem x2aConcat_four : x2aConcat L [.xmm n, .xmm (n + 1)] (aaInRegs .q v 4 size) =
    some (x2aSplit (.xmm n) (vectorOffset L (v + 0)) (vectorOffset L (v + (0 + 1))) ++
      x2aSplit (.xmm (n + 1)) (vectorOffset L (v + 2)) (vectorOffset L (v + (2 + 1)))) := by
  obtain ⟨h₀, hc₀⟩ := offset_aaInRegs (L := L) (v := v) size (show 0 < 4 by norm_num)
  obtain ⟨h₁, hc₁⟩ := offset_aaInRegs (L := L) (v := v) size (show 1 < 4 by norm_num)
  obtain ⟨h₂, hc₂⟩ := offset_aaInRegs (L := L) (v := v) size (show 2 < 4 by norm_num)
  obtain ⟨h₃, hc₃⟩ := offset_aaInRegs (L := L) (v := v) size (show 3 < 4 by norm_num)
  simp only [x2aConcat, h₀, h₁, h₂, h₃, hc₀, hc₁, hc₂, hc₃, teNumOfReg_aaInRegs, XReg.code]
  rw [if_pos ⟨rfl, by omega, by omega, by omega⟩, if_neg (by norm_num)]
  exact if_pos ⟨trivial, by omega⟩

end Concat

/-- The code of a single-precision aggregate in registers. -/
theorem run_x2aConcat (E : BridgeExternals) {m₀ : Mem} (hinv : X2aInv S m₀ s) (size : ℕ) {n elems : ℕ}
    (helems : elems = 2 ∨ elems = 3 ∨ elems = 4) (hn : n + (elems + 1) / 2 ≤ 8)
    (hv : v + elems ≤ 8) :
    ∃ code, x2aConcat L ((range' n ((elems + 1) / 2)).map .xmm) (aaInRegs .q v elems size) =
        some code ∧ ∃ s', run E code s = some s' ∧
      X2aHalves S v (fun j => S.ctx + x64Enum2Offset (.xmm (n + j / 2))) (range elems) s s' := by
  -- the saved registers are not written
  have hctx : ∀ j' < elems, ∀ i < 4, ∀ j < elems,
      ¬ S.Vector (v + j) (S.ctx + x64Enum2Offset (.xmm (n + j' / 2)) + i) := by
    intro j' hj' i hi j hj h
    have := (S.ctx_apart (x64Enum2Offset (.xmm (n + j' / 2)) + i) (by
      simp only [x64Enum2Offset]; omega)).1
    unfold X2aSite.Vector vectorOffset at h
    unfold EnvLayout.size at this
    omega
  obtain ⟨s₁, hrun₁, h₁⟩ := run_x2aSplit (v := v) E
    (fun j => S.ctx + x64Enum2Offset (.xmm (n + j / 2))) hinv.rdi hinv.rsi (.xmm n) (j := 0) rfl rfl
  have hrdi : (s₁.gpr .rdi).toNat = S.env := by rw [h₁.gpr _ (by decide), hinv.rdi]
  have hrsi : (s₁.gpr .rsi).toNat = S.ctx := by rw [h₁.gpr _ (by decide), hinv.rsi]
  rcases helems with rfl | rfl | rfl
  · exact ⟨_, x2aConcat_two, s₁, hrun₁, h₁⟩
  · obtain ⟨s₂, hrun₂, h₂⟩ := run_x2aLast (v := v) E
      (fun j => S.ctx + x64Enum2Offset (.xmm (n + j / 2))) hrdi hrsi (.xmm (n + 1)) (j := 2) rfl
    refine ⟨_, x2aConcat_three, s₂, (run_append_some E hrun₁).trans hrun₂,
      h₁.append h₂ (by simp) fun j' hj' i hi j hj => hctx j' ?_ i hi j ?_⟩
    · rw [mem_singleton.mp hj']
      norm_num
    · rcases mem_pair.mp hj with rfl | rfl <;> norm_num
  · obtain ⟨s₂, hrun₂, h₂⟩ := run_x2aSplit (v := v) E
      (fun j => S.ctx + x64Enum2Offset (.xmm (n + j / 2))) hrdi hrsi (.xmm (n + 1)) (j := 2) rfl rfl
    refine ⟨_, x2aConcat_four, s₂, (run_append_some E hrun₁).trans hrun₂,
      h₁.append h₂ (by simp) fun j' hj' i hi j hj => hctx j' ?_ i hi j ?_⟩
    · rcases mem_pair.mp hj' with rfl | rfl <;> norm_num
    · rcases mem_pair.mp hj with rfl | rfl <;> norm_num

/-- Two to four single-precision members in registers on both sides. -/
theorem x2aArgSpec_split (E : BridgeExternals) {m₀ : Mem} {c : Counters} {t : FlatType} {elems : ℕ}
    (hinv : X2aInv S m₀ s) (hfits : t.XxFits c.2) (hv : t.vector = some (elems, 4)) (h2 : 2 ≤ elems)
    (h8 : c.1.ssecount + elems ≤ 8) :
    X2aArgSpec E S c (aaInRegs .q c.1.ssecount elems t.size, t.xxInRegs c.2) s := by
  obtain ⟨-, h4, -, hsize⟩ := FlatType.vector_spec hv
  have hsse := FlatType.classes_isSse (t := t) (by rw [hv]; simp)
  have hlen := FlatType.classes_length_of_le hfits.size
  have hnx := teNumOfReg_xxInRegs hfits
  have hna : (aaInRegs .q c.1.ssecount elems t.size).teNumOfReg = elems := teNumOfReg_aaInRegs
  have hwords : (t.size + 7) / 8 = (elems + 1) / 2 := by omega
  have hxs : (t.xxInRegs c.2).regs = (range' c.2.ssecount ((elems + 1) / 2)).map .xmm := by
    simp only [ABIArgInfo.regs, xxPieces_of_isSse t.locInfo hsse, hlen, map_map, hwords]
    rfl
  have hcount : c.2.ssecount + (elems + 1) / 2 ≤ 8 := by
    have := hfits.sse
    rw [countP_eq_length.mpr hsse, hlen] at this
    omega
  obtain ⟨code, hcode, s₁, hrun, hhalf⟩ := run_x2aConcat (v := c.1.ssecount)
    (n := c.2.ssecount) E hinv t.size (show elems = 2 ∨ elems = 3 ∨ elems = 4 by omega) hcount h8
  refine ⟨code, ?_, iff_of_true (by rw [hrun]; exact Option.some_ne_none s₁) ?_, fun s' hs' => ?_⟩
  · unfold x2aArg
    rw [hnx, hna, if_neg (by simp [ABIArgInfo.teIsMem]; omega), if_neg (by simp)]
    simp only
    rw [if_neg (by omega), if_pos (by omega), hxs, hcode]
  · simp only [PiecesAligned, hnx, hna]
    intro h
    omega
  · obtain rfl := Option.some.inj (hrun.symm.trans hs')
    refine ⟨fun r hr => hhalf.gpr r ?_, fun b hb => hhalf.out b fun j hj hvec => ?_, fun k hk => ?_,
      fun h => by cases h⟩
    · rcases hr with rfl | rfl | rfl | rfl <;> decide
    · have hj := mem_range.mp hj
      unfold X2aSite.Vector vectorOffset at hvec
      exact hb (Or.inr (Or.inl ⟨c.1.ssecount + j, by omega, by omega, by omega, by omega⟩))
    · have hk' : k < elems * 4 := by rw [← hsize]; exact hk
      have hreg : (t.xxInRegs c.2).teGetReg (k / 8) = some (.xmm (c.2.ssecount + k / 4 / 2)) := by
        rw [ABIArgInfo.teGetReg, hxs, getElem?_map, getElem?_range' (by omega)]
        simp
        omega
      simp only [x2aSource, hnx, hna, hreg, Option.elim_some]
      rw [if_neg (by omega), hsize, guestAddr_vector (by norm_num) hk']
      exact hhalf.half (k / 4) (mem_range.mpr (by omega)) (k % 4) (by omega)

end Iqemu64
