import Iqemu64.X2aSite
import Iqemu64.A2xSource

/-!
# One argument of the host-to-guest code

Most placements are a list of transfers from the saved registers or the host's stack. The rest are
the halves of a vector register, the string copy from stack to stack, and pointers.
-/

namespace Iqemu64
open ByteMemory X64 List Function ABIArgInfo Transfer X2aSite State

variable {L : EnvLayout}

theorem x64Enum2Offset_le {xl xl' : XxAlloc} {r : XReg} {info : LocInfo}
    (h : RegBetween xl xl' r info) : x64Enum2Offset r + 16 ≤ 256 := by
  rcases h with ⟨i, -, -, hi, rfl⟩ | ⟨i, -, -, hi, rfl, -⟩
  · interval_cases i <;> decide
  · simp only [x64Enum2Offset]
    omega

section Source
variable {S : X2aSite L} {t : FlatType} {al al' : AaAlloc} {xl xl' : XxAlloc} {a : ABIArgInfo AReg}
  {x : ABIArgInfo XReg}

theorem teGetReg_offset_le (hfits : t.XxFits xl) (j : ℕ) :
    ((t.xxInRegs xl).teGetReg j).elim 0 x64Enum2Offset + 16 ≤ 256 := by
  cases hr : (t.xxInRegs xl).teGetReg j with
  | none => decide
  | some r =>
    have hmem : r ∈ (t.xxInRegs xl).regs := mem_of_getElem? hr
    obtain ⟨p, hp, rfl⟩ := mem_map.mp hmem
    exact x64Enum2Offset_le (regBetween_of_mem hfits hp)

/-- The stride at which the code reads is that of the AArch64 registers. -/
theorem AaPlaced.regStride_eq (ha : AaPlaced t al a al') {rs : List (AReg × LocInfo)}
    (hloc : a.loc = .regs rs) : a.regStride = 8 ∨ a.regStride = 4 ∧ t.size ≤ 16 := by
  have hpos := t.size_pos
  cases ha with
  | vector hv hfit =>
    rename_i elems width
    obtain ⟨h1, h4, hwidth, hsize⟩ := FlatType.vector_spec hv
    rw [hsize, regStride_vector h1]
    rcases hwidth with rfl | rfl
    · exact Or.inr ⟨rfl, by omega⟩
    · exact Or.inl rfl
  | general hv h16 hfit => exact Or.inl (regStride_general (by omega))
  | pointer hv h16 hfit => exact Or.inl rfl
  | stackVector hv | stackGeneral hv h16 | stackPointer hv h16 => cases hloc

/-- Whatever the strides, arguments are read from the saved registers and the host's stack. -/
theorem x2aSource_source (ha : AaPlaced t al a al') (hx : XxPlaced t xl x xl')
    (hfit : xl'.bytes ≤ S.xxBytes) {k : ℕ} (hk : k < t.size) :
    S.Source (x2aSource S.ctx S.stack a x k) := by
  cases hx with
  | regs hfits =>
    have hreg := teGetReg_offset_le hfits
    have h16 := hfits.size
    have hctx : ∀ j i, i < 16 →
        S.Source (S.ctx + ((t.xxInRegs xl).teGetReg j).elim 0 x64Enum2Offset + i) := by
      intro j i hi
      have := hreg j
      exact Or.inl ⟨_, by omega, Nat.add_assoc _ _ _⟩
    cases hloc : a.loc with
    | regs rs =>
      simp only [x2aSource, hloc]
      split_ifs
      · exact hctx _ _ (by omega)
      · exact hctx _ _ (by omega)
    | mem offset info =>
      simp only [x2aSource, hloc]
      generalize (if ((t.xxInRegs xl).teGetReg 0).any XReg.isXmm then _ else 8) = stride
      split_ifs
      · exact hctx _ _ (by omega)
      · exact hctx _ _ (by omega)
  | stack =>
    simp only at hfit
    cases hloc : a.loc with
    | regs rs =>
      simp only [x2aSource, hloc]
      refine Or.inr ⟨ffiAlign xl.bytes 8 + 8 * (k / a.regStride) + k % a.regStride, ?_, by omega⟩
      rcases ha.regStride_eq hloc with h | ⟨h, h16⟩ <;> rw [h] <;> omega
    | mem offset info =>
      exact Or.inr ⟨ffiAlign xl.bytes 8 + k, by omega, by simp only [x2aSource, hloc]; omega⟩

end Source

def x2aTransfer (base : Gpr) (q : (XReg × LocInfo) × ℕ) : Transfer :=
  ⟨if q.1.1.isXmm then .wide else .word, .rsi, x64Enum2Offset q.1.1, base, q.2⟩

theorem flatMap_x2aPiece (base : Gpr) (qs : List ((XReg × LocInfo) × ℕ)) :
    qs.flatMap (x2aPiece base) = (qs.map (x2aTransfer base)).flatMap code := by
  rw [flatMap_map]
  refine flatMap_congr fun q _ => ?_
  rw [x2aPiece, code, x2aTransfer]
  cases q.1.1.isXmm <;> rfl

def X2aSite.move (S : X2aSite L) (base : ℕ) (q : (XReg × LocInfo) × ℕ) : Move where
  dst := base + q.2
  src := S.ctx + x64Enum2Offset q.1.1
  size := if q.1.1.isXmm then 16 else 8

section Argument
variable (E : BridgeExternals) (S : X2aSite L) (c : Counters) (p : Placement) (s : State)

def X2aArgSpec : Prop :=
  ∃ code, x2aArg L p.1 p.2 = some code ∧ (run E code s ≠ none ↔ PiecesAligned L p.1 p.2) ∧
    ∀ s', run E code s = some s' → X2aStep S c p s s'

variable {S c p s} {m₀ : Mem} {t : FlatType}

theorem x2aArgSpec_transfers {ts : List Transfer}
    (hcode : x2aArg L p.1 p.2 = some (ts.flatMap code)) (hb : ∀ t ∈ ts, t.Based)
    (halign : (∀ t ∈ ts, t.Aligned s) ↔ PiecesAligned L p.1 p.2) (hind : p.1.indirect = false)
    (hbrings : (∀ t ∈ ts, t.Aligned s) → Brings (S.Own c.1) p.1.size
      (p.1.guestAddr L S.env S.sp s.mem) (x2aSource S.ctx S.stack p.1 p.2)
      (ts.map fun t => t.move s)) : X2aArgSpec E S c p s := by
  obtain ⟨hok, hspec⟩ := run_transfers E hb s
  refine ⟨_, hcode, hok.trans halign, fun s' hs' => ?_⟩
  have hB := hbrings (hok.mp (by rw [hs']; exact Option.some_ne_none s'))
  obtain ⟨hmem, hgpr⟩ := hspec s' hs'
  refine ⟨fun r hr => hgpr r ?_, fun a ha => ?_, fun k hk => ?_, by simp [hind]⟩
  · rcases hr with rfl | rfl | rfl | rfl <;> decide
  · rw [hmem]
    exact hB.outside s.mem ha
  · rw [guestAddr_congr (m := s.mem) fun h => absurd h (by simp [hind]), hmem]
    exact hB.inside s.mem hk

theorem x2aTransfer_based {base : Gpr} (hne : base ≠ .rax) (qs : List ((XReg × LocInfo) × ℕ)) :
    ∀ u ∈ qs.map (x2aTransfer base), u.Based := by
  intro u hu
  obtain ⟨q, -, rfl⟩ := mem_map.mp hu
  exact ⟨by simp [x2aTransfer], hne⟩

/-- The saved vector registers are aligned, so only the destination matters. -/
theorem x2aTransfer_aligned_iff (hinv : X2aInv S m₀ s) {base : Gpr}
    (hbase : (s.gpr base).toNat % 16 = 0) (q : (XReg × LocInfo) × ℕ) :
    (x2aTransfer base q).Aligned s ↔ (q.1.1.isXmm = true → q.2 % 16 = 0) := by
  have hctx := S.ctx_aligned
  obtain ⟨⟨x, info⟩, o⟩ := q
  simp only [Transfer.Aligned, x2aTransfer, ea, hinv.rsi]
  cases x
  case xmm n =>
    simp only [XReg.isXmm, if_true, true_imp_iff, x64Enum2Offset]
    omega
  all_goals simp [XReg.isXmm]

/-- Saved registers to the CPU state or to the guest stack. -/
theorem x2aArgSpec_pieces (hinv : X2aInv S m₀ s) {base : Gpr} (hne : base ≠ .rax)
    (hbase : (s.gpr base).toNat % 16 = 0) {qs : List ((XReg × LocInfo) × ℕ)}
    (hcode : x2aArg L p.1 p.2 = some (qs.flatMap (x2aPiece base)))
    (halign : (∀ q ∈ qs, q.1.1.isXmm = true → q.2 % 16 = 0) ↔ PiecesAligned L p.1 p.2)
    (hind : p.1.indirect = false)
    (hbrings : (∀ q ∈ qs, q.1.1.isXmm = true → q.2 % 16 = 0) → Brings (S.Own c.1) p.1.size
      (p.1.guestAddr L S.env S.sp s.mem) (x2aSource S.ctx S.stack p.1 p.2)
      (qs.map (S.move (s.gpr base).toNat))) : X2aArgSpec E S c p s := by
  have hal : (∀ u ∈ qs.map (x2aTransfer base), u.Aligned s) ↔
      ∀ q ∈ qs, q.1.1.isXmm = true → q.2 % 16 = 0 := by
    rw [forall_mem_map]
    exact forall₂_congr fun q _ => x2aTransfer_aligned_iff hinv hbase q
  rw [flatMap_x2aPiece] at hcode
  refine x2aArgSpec_transfers E hcode (x2aTransfer_based hne qs) (hal.trans halign) hind fun h => ?_
  · have hmoves : (qs.map (x2aTransfer base)).map (fun u => u.move s) =
        qs.map (S.move (s.gpr base).toNat) := by
      rw [map_map]
      refine map_congr_left fun q _ => ?_
      simp only [comp, x2aTransfer, Transfer.move, State.ea, hinv.rsi, X2aSite.move]
      cases q.1.1.isXmm <;> rfl
    rw [hmoves]
    exact hbrings (hal.mp h)

theorem FlatType.XxFits.pieces (hfits : t.XxFits c.2) :
    (t.size ≤ 8 ∧ ∃ q, xxPieces t.locInfo t.classes c.2.gprcount c.2.ssecount = [q]) ∨
      (8 < t.size ∧ ∃ q q', xxPieces t.locInfo t.classes c.2.gprcount c.2.ssecount = [q, q']) := by
  have hpos := t.size_pos
  have h16 := hfits.size
  have hlen := xxPieces_length t.locInfo t.classes c.2.gprcount c.2.ssecount
  rw [FlatType.classes_length_of_le h16] at hlen
  by_cases h8 : t.size ≤ 8
  · exact Or.inl ⟨h8, length_eq_one_iff.mp (by omega)⟩
  · exact Or.inr ⟨by omega, length_eq_two.mp (by omega)⟩

theorem x2aArg_regPairs (hfits : t.XxFits c.2) {a : ABIArgInfo AReg} {rs : List (AReg × LocInfo)}
    (hloc : a.loc = .regs rs) (hind : a.indirect = false) (hcount : a.teNumOfReg = (t.size + 7) / 8) :
    x2aArg L a (t.xxInRegs c.2) = some ((regPairs L
      (xxPieces t.locInfo t.classes c.2.gprcount c.2.ssecount) a).flatMap (x2aPiece .rdi)) := by
  have hpos := t.size_pos
  have hxcount := teNumOfReg_xxInRegs hfits
  unfold x2aArg
  rw [if_neg (by simp [teIsMem, hloc, hxcount, hcount]; omega), if_neg (by simp)]
  simp only [hind, hloc]
  rw [if_pos (by rw [hxcount, hcount])]

theorem x2aArgSpec_oneByOne (hinv : X2aInv S m₀ s) (hfits : t.XxFits c.2) {al' : AaAlloc}
    {a : ABIArgInfo AReg} (ha : AaPlaced t c.1 a al') {rs : List (AReg × LocInfo)}
    (hloc : a.loc = .regs rs) (hind : a.indirect = false) (hfitX : c.2.bytes ≤ S.xxBytes)
    (hcount : a.teNumOfReg = (t.size + 7) / 8)
    (hwords : ∀ k < t.size, S.env + a64Enum2Offset L (a.teGetReg (k / 8)) + k % 8 =
      a.guestAddr L S.env S.sp s.mem k)
    (hasc : 8 < t.size → a64Enum2Offset L (a.teGetReg 0) + 8 ≤ a64Enum2Offset L (a.teGetReg 1))
    (hown : ∀ j < (t.size + 7) / 8, ∀ wide : Bool,
      (wide = true → a64Enum2Offset L (a.teGetReg j) % 16 = 0) →
      ∀ b, S.env + a64Enum2Offset L (a.teGetReg j) ≤ b →
        b < S.env + a64Enum2Offset L (a.teGetReg j) + (if wide then 16 else 8) → S.Own c.1 b) :
    X2aArgSpec E S c (a, t.xxInRegs c.2) s := by
  have hpos := t.size_pos
  have hxcount := teNumOfReg_xxInRegs hfits
  have hsrc : ∀ k, x2aSource S.ctx S.stack a (t.xxInRegs c.2) k =
      S.ctx + ((t.xxInRegs c.2).teGetReg (k / 8)).elim 0 x64Enum2Offset + k % 8 := by
    intro k
    simp only [x2aSource, hloc]
    rw [if_pos (by rw [hxcount, hcount])]
  have hsource : ∀ k < t.size, ¬ S.Own c.1 (x2aSource S.ctx S.stack a (t.xxInRegs c.2) k) :=
    fun k hk => (x2aSource_source ha (.regs hfits) hfitX hk).not_own
  refine x2aArgSpec_pieces E hinv (by decide) (by rw [hinv.rdi]; exact S.env_aligned)
    (x2aArg_regPairs hfits hloc hind hcount) ?_ hind ?_
  · simp only [PiecesAligned, hloc]
    exact ⟨fun h _ => h, fun h => h (by rw [hxcount, hcount])⟩
  intro halign
  have hcover : ∀ j q, (xxPieces t.locInfo t.classes c.2.gprcount c.2.ssecount)[j]? = some q →
      j < (t.size + 7) / 8 → ∀ b, (S.move S.env (q, a64Enum2Offset L (a.teGetReg j))).Covers b →
      S.Own c.1 b := by
    intro j q hq hj b hb
    rw [Move.Covers, Move.slot_of_none rfl] at hb
    exact hown j hj q.1.isXmm (halign (q, _) (mem_regPairs_iff.mpr ⟨j, hq, rfl⟩)) b hb.1 hb.2
  simp only [ha.size_eq, hinv.rdi]
  rcases hfits.pieces with ⟨h8, q, hq⟩ | ⟨h8, q, q', hq⟩
  · have hreg : (t.xxInRegs c.2).teGetReg 0 = some q.1 := by
      simp [ABIArgInfo.teGetReg, ABIArgInfo.regs, hq]
    rw [hq] at hcover ⊢
    refine brings_one (hcover 0 q rfl (by omega)) hsource rfl fun k hk => ⟨?_, ?_, ?_⟩
    · simp only [X2aSite.move]
      split_ifs <;> omega
    · rw [← hwords k hk, Nat.div_eq_of_lt (by omega), Nat.mod_eq_of_lt (by omega)]
      rfl
    · rw [hsrc, Nat.div_eq_of_lt (by omega), Nat.mod_eq_of_lt (by omega), hreg]
      rfl
  · have h16 := hfits.size
    have hstep := hasc h8
    have hreg : (t.xxInRegs c.2).teGetReg 0 = some q.1 ∧ (t.xxInRegs c.2).teGetReg 1 = some q'.1 := by
      simp [ABIArgInfo.teGetReg, ABIArgInfo.regs, hq]
    rw [hq] at hcover ⊢
    refine brings_two (hcover 0 q rfl (by omega)) (hcover 1 q' rfl (by omega)) hsource rfl rfl ?_
      fun k hk => ?_
    · simp only [X2aSite.move, Nat.zero_add]
      omega
    rw [hsrc, ← hwords k hk]
    by_cases hk8 : k < 8
    · refine Or.inl ⟨k, ?_, ?_⟩
      · simp only [X2aSite.move]
        split_ifs <;> omega
      · rw [Nat.div_eq_of_lt hk8, Nat.mod_eq_of_lt hk8, hreg.1]
        refine ⟨rfl, rfl, Or.inl ?_⟩
        simp only [X2aSite.move, Nat.zero_add]
        omega
    · refine Or.inr ⟨k - 8, ?_, ?_⟩
      · simp only [X2aSite.move]
        split_ifs <;> omega
      · rw [show k / 8 = 1 by omega, show k % 8 = k - 8 by omega, hreg.2]
        exact ⟨rfl, rfl⟩

theorem x2aArg_regOffsets (hfits : t.XxFits c.2) (offset : ℕ) :
    x2aArg L (aaOnStack offset t.size) (t.xxInRegs c.2) = some ((regOffsets t.size
      (xxPieces t.locInfo t.classes c.2.gprcount c.2.ssecount).length
      (xxPieces t.locInfo t.classes c.2.gprcount c.2.ssecount) offset).flatMap (x2aPiece .r10)) := by
  have hpos := t.size_pos
  have hxcount := teNumOfReg_xxInRegs hfits
  unfold x2aArg
  rw [if_neg (by simp [teIsMem, hxcount]; omega), if_neg (by simp)]

theorem x2aArgSpec_toStack (hinv : X2aInv S m₀ s) (hfits : t.XxFits c.2) {al' : AaAlloc} {offset : ℕ}
    (ha : AaPlaced t c.1 (aaOnStack offset t.size) al') (hoff : c.1.stackOffset ≤ offset)
    (hfitA : offset + t.size ≤ S.aaBytes) (hfitX : c.2.bytes ≤ S.xxBytes) :
    X2aArgSpec E S c (aaOnStack offset t.size, t.xxInRegs c.2) s := by
  have hpos := t.size_pos
  have h16 := hfits.size
  have hxcount := teNumOfReg_xxInRegs hfits
  have hsource : ∀ k < t.size,
      ¬ S.Own c.1 (x2aSource S.ctx S.stack (aaOnStack offset t.size) (t.xxInRegs c.2) k) :=
    fun k hk => (x2aSource_source ha (.regs hfits) hfitX hk).not_own
  refine x2aArgSpec_pieces E hinv (by decide) (by rw [hinv.r10]; exact S.sp_aligned)
    (x2aArg_regOffsets hfits offset) Iff.rfl rfl fun _ => ?_
  have hcover : ∀ q o, offset ≤ o → o ≤ offset + t.size → ∀ b, (S.move S.sp (q, o)).Covers b →
      S.Own c.1 b := by
    intro q o hlo hhi b hb
    rw [Move.Covers, Move.slot_of_none rfl] at hb
    refine Or.inr (Or.inr ?_)
    simp only [X2aSite.move] at hb
    split_ifs at hb <;> omega
  simp only [hinv.r10]
  rcases hfits.pieces with ⟨h8, q, hq⟩ | ⟨h8, q, q', hq⟩
  · have hreg : (t.xxInRegs c.2).teGetReg 0 = some q.1 := by
      simp [teGetReg, regs, hq]
    rw [hq]
    refine brings_one (hcover q offset le_rfl (by omega)) hsource rfl fun k hk => ⟨?_, rfl, ?_⟩
    · simp only [X2aSite.move]
      split_ifs <;> omega
    · simp only [x2aSource, hxcount]
      rw [if_pos (Or.inl (by omega)), hreg]
      rfl
  · have hreg : (t.xxInRegs c.2).teGetReg 0 = some q.1 ∧ (t.xxInRegs c.2).teGetReg 1 = some q'.1 := by
      simp [teGetReg, regs, hq]
    -- the second register lies at half the size if the first one is a vector
    let stride := if q.1.isXmm then t.size / 2 else 8
    have hstride : 4 ≤ stride ∧ stride ≤ 8 ∧ t.size ≤ stride + 8 := by
      simp only [stride]
      split_ifs <;> omega
    have hsrc : ∀ k, x2aSource S.ctx S.stack (aaOnStack offset t.size) (t.xxInRegs c.2) k =
        if k < stride then S.ctx + x64Enum2Offset q.1 + k
        else S.ctx + x64Enum2Offset q'.1 + (k - stride) := by
      intro k
      simp only [x2aSource, hxcount, hreg.1, hreg.2, Option.any_some, Option.elim_some]
      simp only [show (t.size + 7) / 8 = 2 by omega, show ¬ 2 ≤ 1 by omega, false_or, stride]
    rw [hq]
    refine brings_two (hcover q offset le_rfl (by omega)) (hcover q' (offset + stride) (by omega)
      (by omega)) hsource rfl rfl ?_ fun k hk => ?_
    · change S.sp + offset ≠ S.sp + (offset + stride)
      omega
    rw [hsrc]
    by_cases hks : k < stride
    · rw [if_pos hks]
      refine Or.inl ⟨k, ?_, rfl, rfl, Or.inl ?_⟩
      · simp only [X2aSite.move]
        split_ifs <;> omega
      · change S.sp + offset + k < S.sp + (offset + stride)
        omega
    · rw [if_neg hks]
      refine Or.inr ⟨k - stride, ?_, ?_, rfl⟩
      · simp only [X2aSite.move]
        split_ifs <;> omega
      · change S.sp + (offset + stride) + (k - stride) = S.sp + offset + k
        omega

def x2aWord (L : EnvLayout) (offset : ℕ) (bank : ℕ → AReg) (start j : ℕ) : Transfer :=
  ⟨.word, .r11, offset + 8 * j, .rdi, a64Enum2Offset L (some (bank (start + j)))⟩

theorem x2aWord_based (offset : ℕ) (bank : ℕ → AReg) (start n : ℕ) :
    ∀ u ∈ (range n).map (x2aWord L offset bank start), u.Based := by
  intro u hu
  obtain ⟨j, -, rfl⟩ := mem_map.mp hu
  exact ⟨by simp [x2aWord], by simp [x2aWord]⟩

theorem x2aArg_words {bank : ℕ → AReg} {start n : ℕ} (hn : 0 < n) (hwide : n * 16 ≠ t.size) :
    x2aArg L (aaInRegs bank start n t.size) (t.xxOnStack c.2) = some
      (((range n).map (x2aWord L (ffiAlign c.2.bytes 8) bank start)).flatMap code) := by
  have hregs : (aaInRegs bank start n t.size).regs.zipIdx =
      (range n).map fun j => (bank (start + j), j) := by
    refine ext_getElem? fun j => ?_
    by_cases hj : j < n <;> simp [regs, aaRegs, hj]
  have hlen : (aaInRegs bank start n t.size).regs.length = n := teNumOfReg_aaInRegs
  unfold x2aArg
  rw [teNumOfReg_aaInRegs, if_neg (by simp [teIsMem]; omega), if_neg (by simp)]
  simp only [x2aRegsFromMem, hlen, hwide, if_false, hregs, flatMap_map]
  rfl

/-- The host's stack to registers, eight bytes to each. -/
theorem x2aArgSpec_fromStack (hinv : X2aInv S m₀ s) {bank : ℕ → AReg} {start n w : ℕ} {al' : AaAlloc}
    (ha : AaPlaced t c.1 (aaInRegs bank start n t.size) al')
    (hfitX : ffiAlign c.2.bytes 8 + t.size ≤ S.xxBytes) (hn : 0 < n) (hw : 0 < w) (hw8 : w ≤ 8)
    (hsize : t.size ≤ w * n) (hwide : n * 16 ≠ t.size)
    (hstride : (aaInRegs bank start n t.size).regStride = w)
    (hasc : ∀ i j, i < j → a64Enum2Offset L (some (bank (start + i))) + w ≤
      a64Enum2Offset L (some (bank (start + j))))
    (hown : ∀ j < n, ∀ b, S.env + a64Enum2Offset L (some (bank (start + j))) ≤ b →
      b < S.env + a64Enum2Offset L (some (bank (start + j))) + 8 → S.Own c.1 b) :
    X2aArgSpec E S c (aaInRegs bank start n t.size, t.xxOnStack c.2) s := by
  refine x2aArgSpec_transfers E (x2aArg_words hn hwide) (x2aWord_based _ _ _ n) ?_ rfl fun _ => ?_
  · refine iff_of_true (fun u hu => ?_) trivial
    obtain ⟨j, -, rfl⟩ := mem_map.mp hu
    exact fun h => by cases h
  · rw [map_map]
    refine brings_map_range (w := w) hw hsize (fun j hj b hb => ?_)
      (fun k hk => (x2aSource_source ha .stack hfitX hk).not_own) (fun i j hij _ => ?_) fun k hk => ?_
    · rw [Move.Covers, Move.slot_of_none rfl] at hb
      simp only [comp, x2aWord, Transfer.move, State.ea, hinv.rdi] at hb
      exact hown j hj b hb.1 hb.2
    · have := hasc i j hij
      simp only [comp, x2aWord, Transfer.move, State.ea]
      omega
    · have hlt := Nat.mod_lt k hw
      have hj : k / w < n := Nat.div_lt_of_lt_mul (by simp only at hk; omega)
      refine ⟨by simp only [comp, x2aWord, Transfer.move, Width.bytes]; omega, rfl, ?_, ?_⟩
      · simp only [comp, x2aWord, Transfer.move, State.ea, hinv.rdi, ABIArgInfo.guestAddr,
          Bool.false_eq_true, if_false, hstride, teGetReg_aaInRegs hj]
      · simp only [comp, x2aWord, Transfer.move, State.ea, hinv.r11, x2aSource, hstride]
        omega

theorem run_x2aCopy (E : BridgeExternals) (s : State) (size offset aaOffset dst src : ℕ)
    (hdst : (s.gpr .r10 + BitVec.ofInt 64 aaOffset).toNat = dst)
    (hsrc : (s.gpr .r11 + BitVec.ofInt 64 offset).toNat = src)
    (hsize : (BitVec.ofNat 64 size).toNat = size) :
    ∃ s', run E (x2aCopy size offset aaOffset) s = some s' ∧
      s'.mem = s.mem.copyForward dst src size ∧
      ∀ r, r = .rdi ∨ r = .rsi ∨ r = .r10 ∨ r = .r11 → s'.gpr r = s.gpr r := by
  refine ⟨_, rfl, ?_, ?_⟩
  · simp only [setGpr_mem, setMem_mem, setGpr_gpr, reduceCtorEq, if_false, if_true,
      hdst, hsrc, hsize]
  · rintro r (rfl | rfl | rfl | rfl) <;> simp

theorem x2aArg_copy (offset : ℕ) : x2aArg L (aaOnStack offset t.size) (t.xxOnStack c.2) =
    some (x2aCopy t.size (ffiAlign c.2.bytes 8) offset) := by
  unfold x2aArg
  rw [if_neg (by simp [teIsMem]), if_neg (by simp)]
  simp only [if_true]

theorem x2aArgSpec_copy (hinv : X2aInv S m₀ s) {offset : ℕ} (hoff : c.1.stackOffset ≤ offset)
    (hfitA : offset + t.size ≤ S.aaBytes) (hfitX : ffiAlign c.2.bytes 8 + t.size ≤ S.xxBytes) :
    X2aArgSpec E S c (aaOnStack offset t.size, t.xxOnStack c.2) s := by
  have htop := S.sp_top
  have hstop := S.stack_top
  have hdisj : S.sp + offset + t.size ≤ S.stack + ffiAlign c.2.bytes 8 ∨
      S.stack + ffiAlign c.2.bytes 8 + t.size ≤ S.sp + offset := by
    by_contra hmeet
    by_cases hle : S.sp + offset ≤ S.stack + ffiAlign c.2.bytes 8
    · have := (S.stack_apart (ffiAlign c.2.bytes 8) (by omega)).2
      omega
    · have := (S.stack_apart (S.sp + offset - S.stack) (by omega)).2
      omega
  obtain ⟨s₁, hrun, hmem, hgpr⟩ := run_x2aCopy E s t.size (ffiAlign c.2.bytes 8) offset
    (S.sp + offset) (S.stack + ffiAlign c.2.bytes 8)
    (by rw [toNat_add_ofInt _ (by rw [hinv.r10]; omega), hinv.r10])
    (by rw [toNat_add_ofInt _ (by rw [hinv.r11]; omega), hinv.r11])
    (by rw [BitVec.toNat_ofNat, Nat.mod_eq_of_lt (by omega)])
  refine ⟨_, x2aArg_copy offset, iff_of_true (by rw [hrun]; exact Option.some_ne_none s₁) trivial, fun s' hs' => ?_⟩
  obtain rfl := Option.some.inj (hrun.symm.trans hs')
  refine ⟨hgpr, fun a ha => ?_, fun k hk => ?_, fun h => by cases h⟩
  · rw [hmem]
    refine Mem.copyForward_outside t.size s.mem _ _ a ?_
    by_contra hin
    exact ha (Or.inr (Or.inr ⟨by omega, by omega⟩))
  · rw [hmem]
    exact Mem.copyForward_inside t.size s.mem _ _ k hk hdisj

/-- A pointer to the host's stack is stored into the slot of the argument. -/
theorem x2aArgSpec_pointer (hinv : X2aInv S m₀ s) {al' : AaAlloc} {a : ABIArgInfo AReg} (base : Gpr)
    (o : ℕ) (ha : AaPlaced t c.1 a al') (hind : a.indirect = true) (hne : base ≠ .rax)
    (hcode : x2aArg L a (t.xxOnStack c.2) =
      some [.mov .rax .r11, .addi .rax (ffiAlign c.2.bytes 8), .st .rax base o])
    (hslot : (s.gpr base).toNat + o = a.slotAddr L S.env S.sp)
    (hfitX : ffiAlign c.2.bytes 8 + t.size ≤ S.xxBytes)
    (hown : ∀ b, a.slotAddr L S.env S.sp ≤ b → b < a.slotAddr L S.env S.sp + 8 → S.Own c.1 b)
    (hsrc : ∀ k, x2aSource S.ctx S.stack a (t.xxOnStack c.2) k =
      S.stack + ffiAlign c.2.bytes 8 + k) :
    X2aArgSpec E S c (a, t.xxOnStack c.2) s := by
  have hstop := S.stack_top
  have hval : (s.gpr .r11 + BitVec.ofInt 64 (ffiAlign c.2.bytes 8 : ℕ)).toNat =
      S.stack + ffiAlign c.2.bytes 8 := by
    rw [toNat_add_ofInt _ (by rw [hinv.r11]; omega), hinv.r11]
  refine ⟨_, hcode, iff_of_true ?_ ?_, fun s' hs' => ?_⟩
  · simp [run_cons, Insn.step]
  · simp only [PiecesAligned]
  · simp only [run_cons, run_nil, Insn.step, Option.bind_some, setGpr_gpr_same, setGpr_mem,
      setGpr_setGpr, ea, setGpr_gpr_ne _ _ hne, hval, hslot] at hs'
    cases hs'
    have hout : ∀ b, ¬ S.Own c.1 b → (s.mem.storeWord (a.slotAddr L S.env S.sp) 8
        (S.stack + ffiAlign c.2.bytes 8)) b = s.mem b := by
      intro b hb
      refine Mem.storeWord_outside _ _ _ _ b ?_
      by_contra hin
      exact hb (hown b (by omega) (by omega))
    have hptr : ∀ k, a.guestAddr L S.env S.sp (s.mem.storeWord (a.slotAddr L S.env S.sp) 8
        (S.stack + ffiAlign c.2.bytes 8)) k = x2aSource S.ctx S.stack a (t.xxOnStack c.2) k := by
      intro k
      rw [guestAddr_pointer hind, Mem.loadWord_storeWord, Nat.mod_eq_of_lt (by omega), ← hsrc k]
    refine ⟨?_, hout, fun k hk => ?_, fun _ => hptr⟩
    · rintro r (rfl | rfl | rfl | rfl) <;> simp
    · refine (congrArg _ (hptr k)).trans (hout _ (x2aSource_source ha .stack hfitX ?_).not_own)
      rw [← ha.size_eq]
      exact hk

end Argument

end Iqemu64
