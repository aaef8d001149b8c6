import Iqemu64.A2xSteps

/-!
# Single-precision aggregates in the guest-to-host code

Two to four single-precision registers of the guest go into one or two vector registers of the host.
The code first puts each pair side by side in the CPU state.
-/

namespace Iqemu64
open ByteMemory X64 List FlatType

variable {L : EnvLayout} {S : A2xSite L} {m₀ : Mem} {c c' : Counters} {s s' : State} {t : FlatType}
  {elems n v u : ℕ}

theorem vectorOffset_aligned (hinv : A2xInv S m₀ c s) (v : ℕ) :
    s.ea .rbx (vectorOffset L v) % 16 = 0 := by
  have henv := S.env_aligned
  have hz := L.zregs_aligned
  rw [hinv.ea_rbx, vectorOffset]
  omega

/-- One pair of single-precision registers: the invariant is kept and earlier places stay. -/
theorem concatPair_site (c' : Counters) (hinv : A2xInv S m₀ c s) (hc : c.2.gprcount ≤ 6) (hb : c.2.bytes ≤ S.frame)
    (hn : c.2.ssecount ≤ n) (hv : v < c'.1.ssecount) (hv8 : v < 8)
    (hle : c.1.ssecount ≤ c'.1.ssecount) :
    A2xInv S m₀ (c'.1, c.2) (concatPair s n (vectorOffset L v) u) ∧
      AgreeBelow c.2 (a2xHostView s) (a2xHostView (concatPair s n (vectorOffset L v) u)) := by
  have hmem : ∀ a, ¬ (S.env + vectorOffset L v + 4 ≤ a ∧ a < S.env + vectorOffset L v + 8) →
      (concatPair s n (vectorOffset L v) u).mem a = s.mem a := by
    intro a ha
    refine concatPair_mem ?_
    rw [hinv.ea_rbx]
    omega
  refine ⟨hinv.next hle (concatPair_gpr (by decide)) (concatPair_gpr (by decide)) fun a _ hu => ?_, ?_⟩
  · refine hmem a fun ha => hu ⟨v, hv, ?_⟩
    unfold vectorOffset at ha
    omega
  · refine ⟨fun g hlt k _ => ?_, fun w hlt k _ => ?_, fun o ho => ?_⟩
    · obtain ⟨r, hr, hrax, -⟩ := x64Enum2Reg_xxGpr (show g < 6 by omega)
      simp only [a2xHostView, hostReg, hr, State.gprByte, concatPair_gpr hrax]
    · simp only [a2xHostView, hostReg, x64Enum2Reg]
      rw [concatPair_xmm_ne (by omega)]
    · have hframe : S.Frame (S.rsp + o) := by
        rw [ffiAlign_eight] at ho
        unfold A2xSite.Frame A2xFrame
        omega
      simp only [a2xHostView, State.ea, concatPair_gpr (show Gpr.rsp ≠ .rax by decide), hinv.rsp]
      refine hmem _ fun ha => S.state_apart (S.rsp + o - S.env) ?_ ?_
      · unfold vectorOffset at ha
        unfold EnvLayout.size
        omega
      · rw [show S.env + (S.rsp + o - S.env) = S.rsp + o by omega]
        exact hframe

theorem concatPair_bytes (hrbx : (s.gpr .rbx).toNat = S.env) {k : ℕ} (hk : k < 4 ∨ k < 8 ∧ u =
    vectorOffset L (v + 1)) : (concatPair s n (vectorOffset L v) u).xmm n k =
      s.mem (S.env + vectorOffset L (v + k / 4) + k % 4) := by
  by_cases h4 : k < 4
  · rw [concatPair_xmm_lower h4, State.ea, hrbx, Nat.div_eq_of_lt h4, Nat.mod_eq_of_lt h4]
    rfl
  · obtain ⟨h8, rfl⟩ : k < 8 ∧ u = vectorOffset L (v + 1) := by omega
    obtain ⟨i, hi, rfl⟩ : ∃ i < 4, k = 4 + i := ⟨k - 4, by omega, by omega⟩
    rw [concatPair_xmm_upper hi, State.ea, hrbx, show (4 + i) / 4 = 1 by omega,
      show (4 + i) % 4 = i by omega]

/-- The vector registers hold the members side by side. -/
theorem hostHolds_concat (hfits : t.XxFits c.2) (hv : t.vector = some (elems, 4))
    (hbytes : ∀ k < t.size, s'.xmm (c.2.ssecount + k / 8) (k % 8) =
      s.mem (S.env + vectorOffset L (v + k / 4) + k % 4)) :
    HostHolds (a2xHostView s') (t.xxInRegs c.2) fun k =>
      s.mem ((aaInRegs .q v elems t.size).guestAddr L S.env S.sp s.mem k) := by
  obtain ⟨h1, -, -, hsize⟩ := vector_spec hv
  have hsse := classes_isSse (t := t) (by rw [hv]; simp)
  unfold HostHolds
  rw [(XxPlaced.regs hfits).widening_eq]
  cases hw : t.locInfo.widening with
  | some w =>
    obtain ⟨signed, width⟩ := w
    obtain ⟨-, -, hcs⟩ := locInfo_widening hw
    exact absurd (hsse .integersi (by rw [hcs]; exact mem_singleton.mpr rfl)) (by decide)
  | none =>
    intro k hk
    have hk' : k < t.size := hk
    have hreg : (t.xxInRegs c.2).teGetReg (k / 8) = some (.xmm (c.2.ssecount + k / 8)) := by
      simp only [ABIArgInfo.teGetReg, ABIArgInfo.regs, xxPieces_of_isSse t.locInfo hsse,
        classes_length_of_le hfits.size, map_map, getElem?_map]
      rw [getElem?_range' (by omega)]
      simp
    simp only [ABIArgInfo.hostByte, hreg, Option.elim_some, a2xHostView, hostReg, x64Enum2Reg]
    rw [hbytes k hk', hsize, guestAddr_vector (by norm_num) (by omega)]
    rfl

theorem a2xConcat_two {size : ℕ} : a2xConcat L [.xmm n] (aaInRegs .q v 2 size) =
    some (a2xConcatPair n (vectorOffset L v) (vectorOffset L (v + 1))) := by
  obtain ⟨h₀, hc₀⟩ := offset_aaInRegs (L := L) (v := v) size (show 0 < 2 by norm_num)
  obtain ⟨h₁, hc₁⟩ := offset_aaInRegs (L := L) (v := v) size (show 1 < 2 by norm_num)
  simp only [a2xConcat, h₀, h₁, hc₀, hc₁, teNumOfReg_aaInRegs]
  rw [if_pos ⟨trivial, by omega⟩]
  rfl

/-- With three members the fourth word comes from offset zero and is not part of the argument. -/
theorem a2xConcat_four (size : ℕ) (h : elems = 3 ∨ elems = 4) :
    ∃ u, (elems = 4 → u = vectorOffset L (v + 2 + 1)) ∧
      a2xConcat L [.xmm n, .xmm (n + 1)] (aaInRegs .q v elems size) =
        some (a2xConcatPair n (vectorOffset L v) (vectorOffset L (v + 1)) ++
          a2xConcatPair (n + 1) (vectorOffset L (v + 2)) u) := by
  obtain ⟨h₀, hc₀⟩ := offset_aaInRegs (L := L) (v := v) size (show 0 < elems by omega)
  obtain ⟨h₁, hc₁⟩ := offset_aaInRegs (L := L) (v := v) size (show 1 < elems by omega)
  obtain ⟨h₂, hc₂⟩ := offset_aaInRegs (L := L) (v := v) size (show 2 < elems by omega)
  refine ⟨a64Enum2Offset L ((aaInRegs .q v elems size).teGetReg 3), fun h4 => ?_, ?_⟩
  · exact (offset_aaInRegs size (by omega)).1
  · simp only [a2xConcat, h₀, h₁, h₂, hc₀, hc₁, hc₂, teNumOfReg_aaInRegs, XReg.code]
    rw [if_pos ⟨by omega, h, by omega, by omega⟩]
    rfl

theorem a2xStep_concat (E : BridgeExternals) (hinv : A2xInv S m₀ c s) (hfits : t.XxFits c.2) (hc : c.2.gprcount ≤ 6)
    (hb : c.2.bytes ≤ S.frame) (hv : t.vector = some (elems, 4)) (h2 : 2 ≤ elems)
    (h8 : c.1.ssecount + elems ≤ 8) (hle : c.1.ssecount + elems ≤ c'.1.ssecount) :
    ∃ code, a2xArg L (aaInRegs .q c.1.ssecount elems t.size) (t.xxInRegs c.2) = some code ∧
      (run E code s ≠ none ↔
        PiecesAligned L (aaInRegs .q c.1.ssecount elems t.size) (t.xxInRegs c.2)) ∧
      ∀ s', run E code s = some s' →
        A2xStep S m₀ c c' (aaInRegs .q c.1.ssecount elems t.size, t.xxInRegs c.2) s s' := by
  obtain ⟨-, h4, -, hsize⟩ := vector_spec hv
  have hsse := classes_isSse (t := t) (by rw [hv]; simp)
  have hnx := teNumOfReg_xxInRegs hfits
  have hna : (aaInRegs .q c.1.ssecount elems t.size).teNumOfReg = elems := teNumOfReg_aaInRegs
  have hxs : (t.xxInRegs c.2).regs = (range' c.2.ssecount ((t.size + 7) / 8)).map .xmm := by
    simp only [ABIArgInfo.regs, xxPieces_of_isSse t.locInfo hsse,
      classes_length_of_le hfits.size, map_map]
    rfl
  have harg : a2xArg L (aaInRegs .q c.1.ssecount elems t.size) (t.xxInRegs c.2) =
      a2xConcat L (t.xxInRegs c.2).regs (aaInRegs .q c.1.ssecount elems t.size) := by
    unfold a2xArg
    rw [hnx, hna, if_neg (by simp [ABIArgInfo.teIsMem]; omega), if_neg (by simp)]
    simp only
    rw [if_neg (by omega), if_pos (by omega)]
  have haligned : PiecesAligned L (aaInRegs .q c.1.ssecount elems t.size) (t.xxInRegs c.2) := by
    simp only [PiecesAligned, hnx, hna]
    intro h
    omega
  have hsource : ∀ k, a2xSource L S.env S.sp s.mem (aaInRegs .q c.1.ssecount elems t.size)
      (t.xxInRegs c.2) k = (aaInRegs .q c.1.ssecount elems t.size).guestAddr L S.env S.sp s.mem k := by
    intro k
    simp only [a2xSource, hnx, hna]
    rw [if_neg (by omega)]
  simp only [harg, haligned, iff_true]
  rw [hxs]
  have hinv₁ : A2xInv S m₀ (c'.1, c.2) (concatPair s c.2.ssecount (vectorOffset L c.1.ssecount)
      (vectorOffset L (c.1.ssecount + 1))) ∧ AgreeBelow c.2 (a2xHostView s) (a2xHostView
        (concatPair s c.2.ssecount (vectorOffset L c.1.ssecount)
          (vectorOffset L (c.1.ssecount + 1)))) :=
    concatPair_site c' hinv hc hb le_rfl (by omega) (by omega) (by omega)
  by_cases helems : elems = 2
  · subst helems
    rw [show (t.size + 7) / 8 = 1 by omega]
    have hrun := run_a2xConcatPair E c.2.ssecount (vectorOffset L (c.1.ssecount + 1))
      (vectorOffset_aligned hinv c.1.ssecount) []
    rw [append_nil, run_nil] at hrun
    refine ⟨_, a2xConcat_two, by simp [hrun], fun s' hs' => ?_⟩
    obtain rfl := Option.some.inj (hrun.symm.trans hs')
    refine ⟨hinv₁.1.relabel rfl, hinv₁.2, ?_⟩
    simp only [hsource]
    refine hostHolds_concat hfits hv fun k hk => ?_
    rw [Nat.div_eq_of_lt (show k < 8 by omega), Nat.mod_eq_of_lt (show k < 8 by omega)]
    exact concatPair_bytes hinv.rbx (Or.inr ⟨by omega, rfl⟩)
  · rw [show (t.size + 7) / 8 = 2 by omega]
    obtain ⟨u, hu, hcode⟩ := a2xConcat_four (L := L) (v := c.1.ssecount) (n := c.2.ssecount)
      t.size (show elems = 3 ∨ elems = 4 by omega)
    have hinv₂ := concatPair_site (n := c.2.ssecount + 1) (v := c.1.ssecount + 2) (u := u) (c'.1, c.2)
      hinv₁.1 hc hb (Nat.le_succ _) (by simp only; omega) (by omega) le_rfl
    have hrun : run E (a2xConcatPair c.2.ssecount (vectorOffset L c.1.ssecount)
        (vectorOffset L (c.1.ssecount + 1)) ++ a2xConcatPair (c.2.ssecount + 1)
        (vectorOffset L (c.1.ssecount + 2)) u) s = some (concatPair (concatPair s c.2.ssecount
        (vectorOffset L c.1.ssecount) (vectorOffset L (c.1.ssecount + 1))) (c.2.ssecount + 1)
        (vectorOffset L (c.1.ssecount + 2)) u) := by
      rw [run_a2xConcatPair E _ _ (vectorOffset_aligned hinv c.1.ssecount),
        ← append_nil (a2xConcatPair (c.2.ssecount + 1) _ u),
        run_a2xConcatPair E _ _ (vectorOffset_aligned hinv₁.1 _), run_nil]
    refine ⟨_, hcode, by simp [hrun], fun s' hs' => ?_⟩
    obtain rfl := Option.some.inj (hrun.symm.trans hs')
    refine ⟨hinv₂.1.relabel rfl, hinv₁.2.trans hinv₂.2, ?_⟩
    simp only [hsource]
    refine hostHolds_concat hfits hv fun k hk => ?_
    by_cases hk8 : k < 8
    · -- the first vector register
      rw [Nat.div_eq_of_lt hk8, Nat.mod_eq_of_lt hk8, concatPair_xmm_ne (by omega)]
      exact concatPair_bytes hinv.rbx (Or.inr ⟨hk8, rfl⟩)
    · obtain ⟨i, rfl⟩ : ∃ i, k = 8 + i := ⟨k - 8, by omega⟩
      rw [show (8 + i) / 8 = 1 by omega, show (8 + i) % 8 = i by omega,
        concatPair_bytes hinv₁.1.rbx (v := c.1.ssecount + 2) (by
          by_cases hi : i < 4
          · exact Or.inl hi
          · exact Or.inr ⟨by omega, hu (by omega)⟩),
        show (8 + i) / 4 = 2 + i / 4 by omega, show (8 + i) % 4 = i % 4 by omega, ← Nat.add_assoc]
      refine concatPair_mem ?_
      rw [hinv.ea_rbx]
      unfold vectorOffset
      omega

end Iqemu64
