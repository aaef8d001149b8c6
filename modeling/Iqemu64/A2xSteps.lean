import Iqemu64.A2xSite

/-!
# The argument loop of the guest-to-host code

One case lemma for each shape of an argument's code, and from them what any argument's code does.
-/

namespace Iqemu64
open ByteMemory X64 List State

section Cases
variable {L : EnvLayout} (E : BridgeExternals) {S : A2xSite L} {m₀ : Mem} {c c' : Counters}
  {s s' : State} {t : FlatType}

variable {a : ABIArgInfo AReg}

/-- Registers of the CPU state, one for each host register. -/
theorem a2xStep_oneByOne (hinv : A2xInv S m₀ c s) (hfits : t.XxFits c.2)
    (hle : c.1.ssecount ≤ c'.1.ssecount) (hind : a.indirect = false) {as : List (AReg × LocInfo)}
    (ha : a.loc = .regs as) (hn : a.teNumOfReg = (t.size + 7) / 8) :
    ∃ code, a2xArg L a (t.xxInRegs c.2) = some code ∧
      (run E code s ≠ none ↔ PiecesAligned L a (t.xxInRegs c.2)) ∧
      ∀ s', run E code s = some s' → A2xStep S m₀ c c' (a, t.xxInRegs c.2) s s' := by
  have hpos := t.size_pos
  have hnx := teNumOfReg_xxInRegs hfits
  let l := regPairs L (xxPieces t.locInfo t.classes c.2.gprcount c.2.ssecount) a
  have hl : l.map Prod.fst = xxPieces t.locInfo t.classes c.2.gprcount c.2.ssecount := by
    simp only [l, regPairs, map_map]
    exact zipIdx_map_fst 0 _
  have hloadable := loadable_pieces hfits hl (Or.inl rfl)
  refine ⟨l.flatMap (a2xPiece .rbx), ?_, ?_, fun s' hs' => ?_⟩
  · unfold a2xArg
    rw [hnx, hn, if_neg (by simp [ABIArgInfo.teIsMem, ha]; omega), if_neg (by simp)]
    simp only [hind, ha, if_true]
    rfl
  · rw [run_pieces_ne_none_iff E hloadable]
    simp only [PiecesAligned, ha, hnx, hn, forall_const, hinv.ea_rbx]
    have henv := S.env_aligned
    refine forall₃_congr fun q hq hx => ?_
    omega
  · have hloaded := run_pieces E hloadable hs'
    obtain ⟨hrbx, hrsp⟩ := hloaded.gpr_fixed hfits hl
    refine ⟨hinv.next hle hrbx hrsp fun a _ _ => by rw [hloaded.mem], hloaded.agreeBelow hfits hl, ?_⟩
    convert hloaded.hostHolds hfits hl using 3 with k
    -- past the last register both sides are at offset zero
    have hl8 : (l[k / 8]?).elim 0 Prod.snd = a64Enum2Offset L (a.teGetReg (k / 8)) := by
      simp only [l, regPairs, getElem?_map, getElem?_zipIdx, Option.map_map, Nat.zero_add]
      cases hp : (xxPieces t.locInfo t.classes c.2.gprcount c.2.ssecount)[k / 8]? with
      | some p => rfl
      | none =>
        have hlen := getElem?_eq_none_iff.mp hp
        rw [xxPieces_length, FlatType.classes_length_of_le hfits.size, ← hn] at hlen
        rw [ABIArgInfo.teGetReg, getElem?_eq_none hlen]
        rfl
    rw [hl8, hinv.ea_rbx]
    simp only [a2xSource, hind, ha, hnx, hn, if_true]

theorem a2xStep_regsFromStack (hinv : A2xInv S m₀ c s) (hfits : t.XxFits c.2)
    (hc : c.2.gprcount ≤ 6) (hle : c.1.ssecount ≤ c'.1.ssecount) (offset : ℕ) :
    ∃ code, a2xArg L (aaOnStack offset t.size) (t.xxInRegs c.2) = some code ∧
      (run E code s ≠ none ↔ PiecesAligned L (aaOnStack offset t.size) (t.xxInRegs c.2)) ∧
      ∀ s', run E code s = some s' →
        A2xStep S m₀ c c' (aaOnStack offset t.size, t.xxInRegs c.2) s s' := by
  have hpos := t.size_pos
  have hnx := teNumOfReg_xxInRegs hfits
  have hsp : (BitVec.ofNat 64 S.sp).toNat = S.sp := by
    have := S.sp_top
    rw [BitVec.toNat_ofNat, Nat.mod_eq_of_lt (by omega)]
  let xs := xxPieces t.locInfo t.classes c.2.gprcount c.2.ssecount
  let l := regOffsets t.size xs.length xs offset
  have hl : l.map Prod.fst = xs := regOffsets_map_fst _ _ _ _
  have hloadable := loadable_pieces hfits hl (Or.inr rfl)
  -- the code first takes the guest stack pointer
  have hrun : run E (.ld .r11 .rbx spOffset :: l.flatMap (a2xPiece .r11)) s =
      run E (l.flatMap (a2xPiece .r11)) (s.setGpr .r11 (BitVec.ofNat 64 S.sp)) := by
    rw [run_cons]
    simp only [Insn.step, Option.bind_some, hinv.loadWord_sp]
  have hea : ∀ o, (s.setGpr .r11 (BitVec.ofNat 64 S.sp)).ea .r11 o = S.sp + o := by
    intro o
    simp [ea, hsp]
  refine ⟨.ld .r11 .rbx spOffset :: l.flatMap (a2xPiece .r11), ?_, ?_, fun s' hs' => ?_⟩
  · unfold a2xArg
    rw [hnx, if_neg (by simp [ABIArgInfo.teIsMem]; omega), if_neg (by simp)]
  · rw [hrun, run_pieces_ne_none_iff E hloadable]
    simp only [PiecesAligned, hea]
    have := S.sp_aligned
    refine forall₃_congr fun q hq hx => ?_
    omega
  · rw [hrun] at hs'
    have hloaded := run_pieces E hloadable hs'
    obtain ⟨hrbx, hrsp⟩ := hloaded.gpr_fixed hfits hl
    have hagree : AgreeBelow c.2 (a2xHostView s)
        (a2xHostView (s.setGpr .r11 (BitVec.ofNat 64 S.sp))) :=
      agreeBelow_of_stack hc (fun r _ hr => by simp [hr]) rfl fun o _ => rfl
    refine ⟨hinv.next hle (hrbx.trans (by simp)) (hrsp.trans (by simp)) fun a _ _ => ?_,
      hagree.trans (hloaded.agreeBelow hfits hl), ?_⟩
    · rw [hloaded.mem]
      rfl
    · have h := hloaded.hostHolds hfits hl
      simp only [hea, setGpr_mem] at h
      exact h

theorem a2xStep_slots (hinv : A2xInv S m₀ c s) (hc : c.2.gprcount ≤ 6)
    (hle : c.1.ssecount ≤ c'.1.ssecount) (hind : a.indirect = false) {as : List (AReg × LocInfo)}
    (ha : a.loc = .regs as) (hlen : (t.size + 7) / 8 ≤ a.teNumOfReg)
    (h16 : a.teNumOfReg * 16 ≠ t.size)
    (hregs : ∀ r ∈ a.regs, a64Enum2Offset L (some r) + 8 ≤ L.size)
    (hroom : ffiAlign c.2.bytes 8 + 8 * a.teNumOfReg ≤ S.frame + 16) :
    ∃ code, a2xArg L a (t.xxOnStack c.2) = some code ∧
      (run E code s ≠ none ↔ PiecesAligned L a (t.xxOnStack c.2)) ∧
      ∀ s', run E code s = some s' → A2xStep S m₀ c c' (a, t.xxOnStack c.2) s s' := by
  have hpos := t.size_pos
  let l := a2xSlots L (ffiAlign c.2.bytes 8) a.regs
  have hslot : ∀ q ∈ l, ∃ j < a.teNumOfReg, q.2 = ffiAlign c.2.bytes 8 + 8 * j ∧ q.1 + 8 ≤ L.size := by
    intro q hq
    obtain ⟨j, r, hr, rfl⟩ := mem_a2xSlots hq
    exact ⟨j, (List.getElem?_eq_some_iff.mp hr).1, rfl, hregs r (List.mem_of_getElem? hr)⟩
  have hframe : ∀ q ∈ l, ∀ k < 8, S.Frame (s.ea .rsp q.2 + k) := by
    intro q hq k hk
    obtain ⟨j, hj, hq2, -⟩ := hslot q hq
    rw [hinv.ea_rsp, hq2]
    unfold A2xSite.Frame A2xFrame
    omega
  have hstorable : Storable s l := by
    refine ⟨a2xSlots_above L _ _, fun p hp q hq k hk => ?_⟩
    obtain ⟨-, -, -, hp1⟩ := hslot p hp
    have hout := S.state_apart (p.1 + k) (by omega)
    rw [hinv.ea_rbx]
    by_contra hno
    have := hframe q hq (S.env + p.1 + k - s.ea .rsp q.2) (by omega)
    rw [show s.ea .rsp q.2 + (S.env + p.1 + k - s.ea .rsp q.2) = S.env + (p.1 + k) by omega] at this
    exact hout this
  obtain ⟨s₁, hs₁, hstored⟩ := run_slots E t.locInfo hstorable
  refine ⟨l.flatMap (a2xSlot t.locInfo), ?_, ?_, fun s' hs' => ?_⟩
  · unfold a2xArg
    rw [if_neg (by simp [ABIArgInfo.teIsMem, ha]; omega), if_neg (by simp)]
    simp only [hind, ha]
    rw [a2xMemFromRegs_eq L t.locInfo h16]
  · simp [hs₁, PiecesAligned]
  · obtain rfl := Option.some.inj (hs₁.symm.trans hs')
    refine ⟨hinv.next hle (hstored.gpr .rbx (by decide)) (hstored.gpr .rsp (by decide))
      fun b hb _ => ?_, agreeBelow_of_stack hc (fun r hr _ => hstored.gpr r hr) hstored.xmm
      fun o ho => ?_, ?_⟩
    · refine hstored.out b fun q hq => ?_
      by_contra hno
      have := hframe q hq (b - s.ea .rsp q.2) (by omega)
      rw [show s.ea .rsp q.2 + (b - s.ea .rsp q.2) = b by omega] at this
      exact hb this
    · refine hstored.out _ fun q hq => ?_
      obtain ⟨j, -, hq2, -⟩ := hslot q hq
      simp only [hinv.ea_rsp, hq2]
      omega
    · convert hstored.hostHolds hlen using 3 with k
      rw [hinv.ea_rbx]
      simp only [a2xSource, hind, ha]
      rfl

theorem run_a2xCopy_site (hinv : A2xInv S m₀ c s) {setup : BridgeCode} {src : ℕ}
    (hfit : ffiAlign c.2.bytes 8 + t.size ≤ S.frame) (hsrc : src < 2 ^ 64)
    (hapart : ∀ k < t.size, ¬ S.Frame (src + k))
    (hsetup : ∀ u : State, u.gpr .rbx = s.gpr .rbx → (∀ a, ¬ S.Frame a → u.mem a = s.mem a) →
      ∃ v, run E setup u = some ((u.setGpr .rax v).setGpr .rsi (BitVec.ofNat 64 src))) :
    ∃ s', run E (a2xCopy setup t.size (ffiAlign c.2.bytes 8)) s = some s' ∧
      (∀ r, r ≠ .rax → s'.gpr r = s.gpr r) ∧ s'.xmm = s.xmm ∧
      (∀ a, ¬ S.Frame a → s'.mem a = s.mem a) ∧
      (∀ o < ffiAlign c.2.bytes 8, s'.mem (s.ea .rsp o) = s.mem (s.ea .rsp o)) ∧
      ∀ k < t.size, s'.mem (s.ea .rsp (ffiAlign c.2.bytes 8) + k) = s.mem (src + k) := by
  have hroom := S.room
  have htop := S.top
  have hrsp := hinv.rsp
  have hea := hinv.ea_rsp (ffiAlign c.2.bytes 8)
  obtain ⟨s', hs', hgpr, hxmm, hout, hin⟩ := run_a2xCopy E (s := s) setup t.size
    (ffiAlign c.2.bytes 8) src (by omega) (by omega) hsrc
    (fun u hrbx hu => hsetup u hrbx fun a ha => hu a (by
      unfold A2xSite.Frame A2xFrame at ha
      omega))
    (fun k hk => by
      have := hapart k hk
      unfold A2xSite.Frame A2xFrame at this
      omega)
  refine ⟨s', hs', hgpr, hxmm, fun a ha => ?_, fun o ho => ?_, hin⟩
  · unfold A2xSite.Frame A2xFrame at ha
    exact hout a (by omega) (by omega)
  · rw [hinv.ea_rsp]
    exact hout _ (by omega) (by omega)

theorem a2xStep_pointer (hinv : A2xInv S m₀ c s) (hc : c.2.gprcount ≤ 6)
    (hle : c.1.ssecount ≤ c'.1.ssecount) (h16 : 16 < t.size)
    (hfit : ffiAlign c.2.bytes 8 + t.size ≤ S.frame) (hind : a.indirect = true)
    (hsize : a.size = t.size)
    (hslot : ∀ k < 8, s.mem (a.slotAddr L S.env S.sp + k) = m₀ (a.slotAddr L S.env S.sp + k))
    (hptr : S.Pointee m₀ a) (setup : BridgeCode)
    (harg : a2xArg L a (t.xxOnStack c.2) = some (a2xCopy setup t.size (ffiAlign c.2.bytes 8)))
    (hsetup : ∀ u : State, u.gpr .rbx = s.gpr .rbx → (∀ a, ¬ S.Frame a → u.mem a = s.mem a) →
      ∃ v, run E setup u = some ((u.setGpr .rax v).setGpr .rsi
        (BitVec.ofNat 64 (s.mem.loadWord (a.slotAddr L S.env S.sp) 8)))) :
    ∃ code, a2xArg L a (t.xxOnStack c.2) = some code ∧
      (run E code s ≠ none ↔ PiecesAligned L a (t.xxOnStack c.2)) ∧
      ∀ s', run E code s = some s' → A2xStep S m₀ c c' (a, t.xxOnStack c.2) s s' := by
  have haddr : ∀ k, a.guestAddr L S.env S.sp m₀ k =
      s.mem.loadWord (a.slotAddr L S.env S.sp) 8 + k := by
    intro k
    rw [guestAddr_pointer hind, Mem.loadWord_congr _ _ _ _ hslot]
  obtain ⟨s₁, hs₁, hgpr, hxmm, hout, hbelow, hin⟩ := run_a2xCopy_site E hinv hfit
    (Mem.loadWord_lt _ _ _) (fun k hk => by
      rw [← haddr]
      exact (hptr hind k (by omega)).1) hsetup
  refine ⟨_, harg, by simp [hs₁, PiecesAligned], fun s' hs' => ?_⟩
  obtain rfl := Option.some.inj (hs₁.symm.trans hs')
  refine ⟨hinv.next hle (hgpr .rbx (by decide)) (hgpr .rsp (by decide)) fun b hb _ => hout b hb,
    agreeBelow_of_stack hc (fun r hr _ => hgpr r hr) hxmm hbelow, hostHolds_onStack ?_ ?_⟩
  · intro _ k hk
    simp only [ea, hgpr .rsp (by decide)]
    rw [← ea, hin k hk]
    simp only [a2xSource, hind]
    rw [guestAddr_pointer hind]
  · intro signed width hw hwidth
    have := (FlatType.locInfo_widening hw).1
    omega

variable {u : State}

/-- Widening of a small integer on the host stack, in place. -/
theorem run_widenSlot (offset : ℕ) (info : LocInfo) :
    let w := info.extend (BitVec.ofNat 64 (u.mem.loadWord (u.ea .rsp offset) 8))
    ∃ u', run E (.ld .rax .rsp offset :: (tcgExtendArgInRaxByLocInfo info ++ [.st .rax .rsp offset])) u =
        some u' ∧ (∀ r, r ≠ .rax → u'.gpr r = u.gpr r) ∧ u'.xmm = u.xmm ∧
      u'.mem = u.mem.storeWord (u.ea .rsp offset) 8 w.toNat := by
  simp only [run_cons, Insn.step, Option.bind_some, run_tcgExtend, run_nil]
  refine ⟨_, rfl, fun r hr => by simp [hr], rfl, ?_⟩
  simp [ea]

/-- The CPU state reads the same while registers are saved in the frame. -/
theorem loadWord_state (hinv : A2xInv S m₀ c s) (hrbx : u.gpr .rbx = s.gpr .rbx)
    (hu : ∀ a, ¬ S.Frame a → u.mem a = s.mem a) {o : ℕ} (ho : o + 8 ≤ L.size) :
    u.mem.loadWord (u.ea .rbx o) 8 = s.mem.loadWord (S.env + o) 8 := by
  rw [ea, hrbx, hinv.rbx]
  apply Mem.loadWord_congr
  intro k hk
  rw [Nat.add_assoc]
  exact hu _ (S.state_apart (o + k) (by omega))

theorem spOffset_lt : spOffset + 8 ≤ L.size := by
  have := L.zregs_ge
  unfold spOffset EnvLayout.size
  omega

theorem loadWord_sp_of_frame (hinv : A2xInv S m₀ c s) (hrbx : u.gpr .rbx = s.gpr .rbx)
    (hu : ∀ a, ¬ S.Frame a → u.mem a = s.mem a) :
    u.mem.loadWord (u.ea .rbx spOffset) 8 = S.sp := by
  rw [loadWord_state hinv hrbx hu spOffset_lt, ← hinv.ea_rbx]
  exact hinv.loadWord_sp

theorem a2xStep_stackFromStack (hinv : A2xInv S m₀ c s) (hc : c.2.gprcount ≤ 6)
    (hle : c.1.ssecount ≤ c'.1.ssecount) (hfit : ffiAlign c.2.bytes 8 + t.size ≤ S.frame)
    {offset : ℕ} (hoff : offset + t.size ≤ S.aaBytes) :
    ∃ code, a2xArg L (aaOnStack offset t.size) (t.xxOnStack c.2) = some code ∧
      (run E code s ≠ none ↔ PiecesAligned L (aaOnStack offset t.size) (t.xxOnStack c.2)) ∧
      ∀ s', run E code s = some s' →
        A2xStep S m₀ c c' (aaOnStack offset t.size, t.xxOnStack c.2) s s' := by
  have htop := S.sp_top
  have hsetup : ∀ u : State, u.gpr .rbx = s.gpr .rbx → (∀ a, ¬ S.Frame a → u.mem a = s.mem a) →
      ∃ v, run E [.ld .rsi .rbx spOffset, .addi .rsi offset] u =
        some ((u.setGpr .rax v).setGpr .rsi (BitVec.ofNat 64 (S.sp + offset))) := by
    intro u hrbx hu
    refine ⟨u.gpr .rax, ?_⟩
    simp only [run_cons, run_nil, Insn.step, Option.bind_some, loadWord_sp_of_frame hinv hrbx hu,
      setGpr_gpr_same, setGpr_setGpr, setGpr_self, BitVec.ofInt_natCast,
      BitVec.ofNat_add]
  obtain ⟨s₁, hs₁, hgpr, hxmm, hout, hbelow, hin⟩ := run_a2xCopy_site E hinv hfit
    (show S.sp + offset < 2 ^ 64 by omega) (fun k hk => by
      rw [Nat.add_assoc]
      exact (S.stack_apart (offset + k) (by omega)).1) hsetup
  have harg : a2xArg L (aaOnStack offset t.size) (t.xxOnStack c.2) =
      some (a2xCopy [.ld .rsi .rbx spOffset, .addi .rsi offset] t.size (ffiAlign c.2.bytes 8) ++
        if t.size ≤ 2 then .ld .rax .rsp (ffiAlign c.2.bytes 8) ::
          (tcgExtendArgInRaxByLocInfo t.locInfo ++ [.st .rax .rsp (ffiAlign c.2.bytes 8)])
        else []) := by
    unfold a2xArg
    rw [if_neg (by simp [ABIArgInfo.teIsMem]), if_neg (by simp)]
    simp only [if_true]
  have hrsp : ∀ o, s₁.ea .rsp o = s.ea .rsp o := fun o => by
    rw [ea, hgpr .rsp (by decide), ea]
  have hsrc : ∀ k, a2xSource L S.env S.sp s.mem (aaOnStack offset t.size) (t.xxOnStack c.2) k =
      S.sp + offset + k := fun _ => rfl
  refine ⟨_, harg, ?_⟩
  rw [run_append_some E hs₁]
  by_cases h2 : t.size ≤ 2
  · rw [if_pos h2]
    obtain ⟨u, hu, hugpr, huxmm, humem⟩ := run_widenSlot E (u := s₁)
      (ffiAlign c.2.bytes 8) t.locInfo
    refine ⟨by simp [hu, PiecesAligned], fun s' hs' => ?_⟩
    obtain rfl := Option.some.inj (hu.symm.trans hs')
    have hcell : ∀ k < 8, u.mem (u.ea .rsp (ffiAlign c.2.bytes 8) + k) = byteAt (t.locInfo.extend
        (BitVec.ofNat 64 (s₁.mem.loadWord (s₁.ea .rsp (ffiAlign c.2.bytes 8)) 8))).toNat k := by
      intro k hk
      have hea : u.ea .rsp (ffiAlign c.2.bytes 8) = s₁.ea .rsp (ffiAlign c.2.bytes 8) := by
        rw [ea, hugpr .rsp (by decide), ea]
      rw [humem, hea]
      exact Mem.storeWord_inside _ _ _ _ k hk
    refine ⟨hinv.next hle (by rw [hugpr .rbx (by decide), hgpr .rbx (by decide)])
      (by rw [hugpr .rsp (by decide), hgpr .rsp (by decide)]) fun b hb _ => ?_,
      agreeBelow_of_stack hc (fun r hr _ => by rw [hugpr r hr, hgpr r hr]) (huxmm.trans hxmm)
      fun o ho => ?_, hostHolds_onStack ?_ ?_⟩
    · rw [humem, Mem.storeWord_outside _ _ _ _ _ ?_, hout b hb]
      rw [hrsp, hinv.ea_rsp]
      unfold A2xSite.Frame A2xFrame at hb
      omega
    · rw [humem, Mem.storeWord_outside _ _ _ _ _ ?_, hbelow o ho]
      rw [hrsp, hinv.ea_rsp, hinv.ea_rsp]
      omega
    · intro hw k hk
      rw [hcell k (by omega), LocInfo.byteAt_extend_of_none hw (by omega), hrsp, hin k hk, hsrc]
    · intro signed width hw hwidth k hk
      have hsize := (FlatType.locInfo_widening hw).1
      rw [hcell k (by omega), LocInfo.byteAt_extend hw hwidth hk]
      apply extendBytes_congr signed width _ _ (by omega)
      intro i hi
      rw [hrsp, hin i (by omega), hsrc]
  · rw [if_neg h2, run_nil]
    refine ⟨by simp [PiecesAligned], fun s' hs' => ?_⟩
    cases hs'
    refine ⟨hinv.next hle (hgpr .rbx (by decide)) (hgpr .rsp (by decide)) fun b hb _ => hout b hb,
      agreeBelow_of_stack hc (fun r hr _ => hgpr r hr) hxmm hbelow, hostHolds_onStack ?_ ?_⟩
    · intro _ k hk
      rw [hrsp, hin k hk, hsrc]
    · intro signed width hw hwidth
      have := (FlatType.locInfo_widening hw).1
      omega

end Cases

end Iqemu64
