import Iqemu64.A2xRun

/-!
# One argument of the guest-to-host code

`a2xSource` is the guest address each byte of an argument is really taken from. An argument's code
runs to its end exactly when its vector loads are aligned, fills the argument's place from there, and
leaves the places of earlier arguments alone.
-/

namespace Iqemu64
open ByteMemory X64 List State

def a2xHostView (s : State) : HostView where
  reg := hostReg s
  stack o := s.mem (s.ea .rsp o)

def a2xSource (L : EnvLayout) (env sp : ℕ) (m : Mem) (a : ABIArgInfo AReg) (x : ABIArgInfo XReg)
    (k : ℕ) : ℕ :=
  match x.loc, a.indirect, a.loc with
  | .regs _, false, .regs _ =>
    if x.teNumOfReg = a.teNumOfReg then env + a64Enum2Offset L (a.teGetReg (k / 8)) + k % 8
    else a.guestAddr L env sp m k
  | .regs xs, false, .mem offset _ =>
    sp + ((regOffsets a.size xs.length xs offset)[k / 8]?).elim 0 Prod.snd + k % 8
  | .mem _ _, false, .regs _ => env + a64Enum2Offset L (a.teGetReg (k / 8)) + k % 8
  | _, _, _ => a.guestAddr L env sp m k

theorem x64Enum2Reg_xxGpr {g : ℕ} (hg : g < 6) : ∃ r, x64Enum2Reg (xxGpr g) = .inl r ∧
    r ≠ .rax ∧ r ≠ .rbx ∧ r ≠ .rsp ∧ r ≠ .r11 := by
  interval_cases g <;> exact ⟨_, rfl, by decide⟩

theorem x64Enum2Reg_xxGpr_injective :
    ∀ g < 6, ∀ g' < 6, x64Enum2Reg (xxGpr g) = x64Enum2Reg (xxGpr g') → g = g' := by decide

section Regs
variable {t : FlatType} {xl xl' : XxAlloc} {l : List ((XReg × LocInfo) × ℕ)} {base : Gpr}
  {s s' : State}

theorem RegBetween.eq_of_x64Enum2Reg {x y : XReg} {i j : LocInfo} (hx : RegBetween xl xl' x i)
    (hy : RegBetween xl xl' y j) (h : x64Enum2Reg x = x64Enum2Reg y) : x = y := by
  rcases hx with ⟨g, -, -, hg, rfl⟩ | ⟨v, -, -, -, rfl, -⟩ <;>
    rcases hy with ⟨g', -, -, hg', rfl⟩ | ⟨v', -, -, -, rfl, -⟩
  · rw [x64Enum2Reg_xxGpr_injective g hg g' hg' h]
  · obtain ⟨r, hr, -⟩ := x64Enum2Reg_xxGpr hg
    rw [hr] at h
    cases h
  · obtain ⟨r, hr, -⟩ := x64Enum2Reg_xxGpr hg'
    rw [hr] at h
    cases h
  · obtain rfl := Sum.inr.inj h
    rfl

theorem regBetween_pieces (hfits : t.XxFits xl)
    (hl : l.map Prod.fst = xxPieces t.locInfo t.classes xl.gprcount xl.ssecount) :
    ∀ q ∈ l, RegBetween xl (t.xxAfterRegs xl) q.1.1 q.1.2 := by
  intro q hq
  refine regBetween_of_mem hfits ?_
  rw [← hl]
  exact mem_map_of_mem hq

/-- No argument register is one that the code works with. -/
theorem pieces_ne (hfits : t.XxFits xl)
    (hl : l.map Prod.fst = xxPieces t.locInfo t.classes xl.gprcount xl.ssecount) {r : Gpr}
    (hr : r = .rax ∨ r = .rbx ∨ r = .rsp ∨ r = .r11) : ∀ q ∈ l, x64Enum2Reg q.1.1 ≠ .inl r := by
  intro q hq heq
  rcases regBetween_pieces hfits hl q hq with ⟨g, -, -, hg, hx⟩ | ⟨v, -, -, -, hx, -⟩
  · obtain ⟨r', hr', h₁, h₂, h₃, h₄⟩ := x64Enum2Reg_xxGpr hg
    rw [hx, hr'] at heq
    obtain rfl := Sum.inl.inj heq
    tauto
  · rw [hx] at heq
    cases heq

/-- The registers of an argument can be loaded from the CPU state or from `r11`. -/
theorem loadable_pieces (hfits : t.XxFits xl)
    (hl : l.map Prod.fst = xxPieces t.locInfo t.classes xl.gprcount xl.ssecount)
    (hbase : base = .rbx ∨ base = .r11) : Loadable base l := by
  have hmem := regBetween_pieces hfits hl
  refine ⟨?_, pieces_ne hfits hl (by tauto), pieces_ne hfits hl (Or.inl rfl), ?_⟩
  · rcases hbase with rfl | rfl <;> decide
  · have hpair := xxPieces_pairwise t.locInfo t.classes xl.gprcount xl.ssecount
      (by rw [t.countP_not_isSse]; exact hfits.gpr)
    rw [← hl, pairwise_map] at hpair
    exact hpair.imp_of_mem fun hp hq hne heq =>
      hne ((hmem _ hp).eq_of_x64Enum2Reg (hmem _ hq) heq)

theorem Loaded.gpr_fixed (h : Loaded base l s s') (hfits : t.XxFits xl)
    (hl : l.map Prod.fst = xxPieces t.locInfo t.classes xl.gprcount xl.ssecount) :
    s'.gpr .rbx = s.gpr .rbx ∧ s'.gpr .rsp = s.gpr .rsp :=
  ⟨h.gpr .rbx (by decide) (pieces_ne hfits hl (by tauto)),
    h.gpr .rsp (by decide) (pieces_ne hfits hl (by tauto))⟩

theorem Loaded.hostHolds (h : Loaded base l s s') (hfits : t.XxFits xl)
    (hl : l.map Prod.fst = xxPieces t.locInfo t.classes xl.gprcount xl.ssecount) :
    HostHolds (a2xHostView s') (t.xxInRegs xl)
      fun k => s.mem (s.ea base ((l[k / 8]?).elim 0 Prod.snd) + k % 8) := by
  have hpos := t.size_pos
  have hlen : l.length = (t.size + 7) / 8 := by
    rw [← length_map (f := Prod.fst), hl, xxPieces_length,
      FlatType.classes_length_of_le hfits.size]
  -- byte `k` of the argument is byte `k % 8` of what piece `k / 8` loads
  have hbyte : ∀ k, k / 8 < (t.size + 7) / 8 → ∃ q, l[k / 8]? = some q ∧
      q.1 ∈ xxPieces t.locInfo t.classes xl.gprcount xl.ssecount ∧
      (t.xxInRegs xl).hostByte (a2xHostView s') k = pieceByte s base q (k % 8) := by
    intro k hk
    obtain ⟨q, hq⟩ : ∃ q, l[k / 8]? = some q := ⟨_, getElem?_eq_getElem (by omega)⟩
    have hqmem := mem_of_getElem? hq
    refine ⟨q, hq, ?_, ?_⟩
    · rw [← hl]
      exact mem_map_of_mem hqmem
    · have hreg : (t.xxInRegs xl).teGetReg (k / 8) = some q.1.1 := by
        simp only [ABIArgInfo.teGetReg, ABIArgInfo.regs, ← hl, getElem?_map, hq]
        rfl
      simp only [ABIArgInfo.hostByte, hreg, Option.elim_some]
      exact h.reg q hqmem (k % 8) (Nat.mod_lt k (by norm_num))
  unfold HostHolds
  rw [(XxPlaced.regs hfits).widening_eq]
  cases hw : t.locInfo.widening with
  | none =>
    intro k hk
    obtain ⟨q, hq, hmem, hval⟩ := hbyte k (by simp only at hk; omega)
    rw [hval]
    simp only [hq, Option.elim_some]
    rcases mem_xxPieces hmem with ⟨i, -, hi, hp⟩ | ⟨i, -, -, hp⟩
    · rw [t.countP_not_isSse] at hi
      obtain ⟨r, hr, -⟩ := x64Enum2Reg_xxGpr (show i < 6 by have := hfits.gpr; omega)
      simp only [pieceByte, hp, hr]
      exact LocInfo.byteAt_extend_of_none hw (Nat.mod_lt k (by norm_num))
    · simp only [pieceByte, hp, x64Enum2Reg]
  | some w =>
    obtain ⟨signed, width⟩ := w
    obtain ⟨hsize, hwidth, hcs⟩ := FlatType.locInfo_widening hw
    intro k hk
    obtain ⟨q, hq, hmem, hval⟩ := hbyte k (by omega)
    have hp : q.1 = (xxGpr xl.gprcount, t.locInfo) := by
      rw [hcs] at hmem
      exact mem_singleton.mp hmem
    obtain ⟨r, hr, -⟩ := x64Enum2Reg_xxGpr
      (show xl.gprcount < 6 by have := hfits.gpr; rw [hcs] at this; exact this)
    rw [hval, Nat.mod_eq_of_lt (show k < 8 by omega)]
    simp only [pieceByte, hp, hr]
    rw [LocInfo.byteAt_extend hw hwidth hk]
    apply extendBytes_congr signed width _ _ (by omega)
    intro i hi
    rw [Nat.div_eq_of_lt (show i < 8 by omega), Nat.mod_eq_of_lt (show i < 8 by omega)]
    rw [Nat.div_eq_of_lt (show k < 8 by omega)] at hq
    rw [hq]
    rfl

theorem Loaded.agreeBelow (h : Loaded base l s s') (hfits : t.XxFits xl)
    (hl : l.map Prod.fst = xxPieces t.locInfo t.classes xl.gprcount xl.ssecount) :
    AgreeBelow xl (a2xHostView s) (a2xHostView s') := by
  have hg := hfits.gpr
  have hmem := regBetween_pieces hfits hl
  refine ⟨fun g hlt k _ => ?_, fun v hlt k _ => ?_, fun o _ => ?_⟩
  · obtain ⟨r, hr, hrax, -⟩ := x64Enum2Reg_xxGpr (show g < 6 by omega)
    simp only [a2xHostView, hostReg, hr, gprByte]
    rw [h.gpr r hrax fun q hq heq => ?_]
    rcases hmem q hq with ⟨i, hi, -, hi6, hx⟩ | ⟨v, -, -, -, hx, -⟩
    · rw [hx, ← hr] at heq
      have := x64Enum2Reg_xxGpr_injective i hi6 g (by omega) heq
      omega
    · rw [hx] at heq
      cases heq
  · simp only [a2xHostView, hostReg, x64Enum2Reg]
    rw [h.xmm v fun q hq heq => ?_]
    rcases hmem q hq with ⟨i, -, -, hi6, hx⟩ | ⟨i, hi, -, -, hx, -⟩
    · obtain ⟨r, hr, -⟩ := x64Enum2Reg_xxGpr hi6
      rw [hx, hr] at heq
      cases heq
    · rw [hx] at heq
      have := Sum.inr.inj heq
      omega
  · simp only [a2xHostView, ea, (h.gpr_fixed hfits hl).2, h.mem]

end Regs

section Stack
variable {t : FlatType} {xl : XxAlloc} {s s' : State}

/-- The host view of an argument on the stack, from the bytes of its slot. -/
theorem hostHolds_onStack {val : ℕ → UInt8}
    (hnone : t.locInfo.widening = none → ∀ k < t.size,
      s'.mem (s'.ea .rsp (ffiAlign xl.bytes 8) + k) = val k)
    (hsome : ∀ signed width, t.locInfo.widening = some (signed, width) →
      (width = 1 ∨ width = 2) → ∀ k < 4,
        s'.mem (s'.ea .rsp (ffiAlign xl.bytes 8) + k) = extendBytes signed width val k) :
    HostHolds (a2xHostView s') (t.xxOnStack xl) val := by
  have hview : ∀ k, (t.xxOnStack xl).hostByte (a2xHostView s') k =
      s'.mem (s'.ea .rsp (ffiAlign xl.bytes 8) + k) := by
    intro k
    simp only [ABIArgInfo.hostByte, a2xHostView, ea, Nat.add_assoc]
  unfold HostHolds
  rw [XxPlaced.stack.widening_eq (x := t.xxOnStack xl)]
  cases hw : t.locInfo.widening with
  | none =>
    intro k hk
    rw [hview]
    exact hnone hw k hk
  | some w =>
    obtain ⟨signed, width⟩ := w
    intro k hk
    rw [hview]
    exact hsome signed width hw (FlatType.locInfo_widening hw).2.1 k hk

/-- Only registers that carry no argument and the stack above earlier arguments change. -/
theorem agreeBelow_of_stack (hg : xl.gprcount ≤ 6)
    (hgpr : ∀ r, r ≠ .rax → r ≠ .r11 → s'.gpr r = s.gpr r) (hxmm : s'.xmm = s.xmm)
    (hmem : ∀ o < ffiAlign xl.bytes 8, s'.mem (s.ea .rsp o) = s.mem (s.ea .rsp o)) :
    AgreeBelow xl (a2xHostView s) (a2xHostView s') := by
  refine ⟨fun g hlt k _ => ?_, fun v _ k _ => ?_, fun o ho => ?_⟩
  · obtain ⟨r, hr, hrax, -, -, hr11⟩ := x64Enum2Reg_xxGpr (show g < 6 by omega)
    simp only [a2xHostView, hostReg, hr, gprByte, hgpr r hrax hr11]
  · simp only [a2xHostView, hostReg, x64Enum2Reg, hxmm]
  · have := hmem o ho
    simp only [ea] at this
    simp only [a2xHostView, ea, hgpr .rsp (by decide) (by decide), this]

def a2xSlots (L : EnvLayout) (offset : ℕ) (as : List AReg) : List (ℕ × ℕ) :=
  as.zipIdx.map fun p => (a64Enum2Offset L (some p.1), offset + 8 * p.2)

theorem a2xMemFromRegs_eq (L : EnvLayout) {offset size : ℕ} (info : LocInfo) {as : List AReg}
    (hne : as.length * 16 ≠ size) :
    a2xMemFromRegs L offset size info as = (a2xSlots L offset as).flatMap (a2xSlot info) := by
  simp only [a2xMemFromRegs, hne, if_false, a2xSlots, flatMap_map]
  rfl

theorem a2xSlots_above (L : EnvLayout) (offset : ℕ) (as : List AReg) :
    (a2xSlots L offset as).Pairwise fun p q => p.2 + 8 ≤ q.2 := by
  have hlt : (as.zipIdx).Pairwise fun p q => p.2 < q.2 := by
    rw [← pairwise_map (f := Prod.snd) (R := (· < ·)), zipIdx_map_snd]
    exact pairwise_lt_range'
  rw [a2xSlots, pairwise_map]
  exact hlt.imp fun {p q} h => by
    simp only
    omega

theorem mem_a2xSlots {L : EnvLayout} {offset : ℕ} {as : List AReg} {q : ℕ × ℕ}
    (hq : q ∈ a2xSlots L offset as) :
    ∃ j a, as[j]? = some a ∧ q = (a64Enum2Offset L (some a), offset + 8 * j) := by
  obtain ⟨⟨a, j⟩, hp, rfl⟩ := mem_map.mp hq
  exact ⟨j, a, mem_zipIdx_iff_getElem?.mp hp, rfl⟩

theorem Stored.hostHolds {L : EnvLayout} {as : List AReg}
    (h : Stored t.locInfo (a2xSlots L (ffiAlign xl.bytes 8) as) s s')
    (hlen : (t.size + 7) / 8 ≤ as.length) :
    HostHolds (a2xHostView s') (t.xxOnStack xl)
      fun k => s.mem (s.ea .rbx (a64Enum2Offset L (as[k / 8]?)) + k % 8) := by
  have hpos := t.size_pos
  have hrsp : s'.gpr .rsp = s.gpr .rsp := h.gpr .rsp (by decide)
  have hslot : ∀ k, k / 8 < (t.size + 7) / 8 →
      s'.mem (s'.ea .rsp (ffiAlign xl.bytes 8) + k) = byteAt (t.locInfo.extend (BitVec.ofNat 64
        (s.mem.loadWord (s.ea .rbx (a64Enum2Offset L (as[k / 8]?))) 8))).toNat (k % 8) := by
    intro k hk
    obtain ⟨a, ha⟩ : ∃ a, as[k / 8]? = some a := ⟨_, getElem?_eq_getElem (by omega)⟩
    have := h.slot (a64Enum2Offset L (some a), ffiAlign xl.bytes 8 + 8 * (k / 8))
      (mem_map.mpr ⟨(a, k / 8), mem_zipIdx_iff_getElem?.mpr ha, rfl⟩) (k % 8)
      (Nat.mod_lt k (by norm_num))
    rw [ha, ← this]
    simp only [ea, hrsp]
    congr 1
    omega
  apply hostHolds_onStack
  · intro hw k hk
    rw [hslot k (by omega)]
    exact LocInfo.byteAt_extend_of_none hw (Nat.mod_lt k (by norm_num))
  · intro signed width hw hwidth k hk
    rw [hslot k (by omega), Nat.mod_eq_of_lt (show k < 8 by omega),
      Nat.div_eq_of_lt (show k < 8 by omega), LocInfo.byteAt_extend hw hwidth hk]
    apply extendBytes_congr signed width _ _ (by omega)
    intro i hi
    rw [Nat.div_eq_of_lt (show i < 8 by omega), Nat.mod_eq_of_lt (show i < 8 by omega)]

end Stack

section Concat
variable (E : BridgeExternals)

def concatPair (s : State) (n lower upper : ℕ) : State :=
  let w := BitVec.ofNat 64 (s.mem.loadWord (s.ea .rbx upper) 4)
  let m := s.mem.storeWord (s.ea .rbx (lower + 4)) 4 w.toNat
  ((s.setGpr .rax w).setMem m).setXmm n fun k => m (s.ea .rbx lower + k)

theorem run_a2xConcatPair {s : State} (n : ℕ) {lower : ℕ} (upper : ℕ) (h : s.ea .rbx lower % 16 = 0)
    (code : BridgeCode) : run E (a2xConcatPair n lower upper ++ code) s =
      run E code (concatPair s n lower upper) := by
  have ha : ((s.gpr .rbx).toNat + lower) % 16 = 0 := h
  simp only [a2xConcatPair, cons_append, nil_append, run_cons, Insn.step, Option.bind_some,
    ea, setGpr_gpr, setMem_gpr, reduceCtorEq, if_false, if_true, ha, concatPair,
    setGpr_mem, setMem_mem]

variable {s : State} {n lower upper : ℕ}

theorem concatPair_gpr {r : Gpr} (hr : r ≠ .rax) :
    (concatPair s n lower upper).gpr r = s.gpr r := by
  simp [concatPair, hr]

theorem concatPair_xmm_ne {v : ℕ} (hv : v ≠ n) : (concatPair s n lower upper).xmm v = s.xmm v := by
  simp [concatPair, hv]

theorem concatPair_mem {a : ℕ} (ha : a < s.ea .rbx lower + 4 ∨ s.ea .rbx lower + 8 ≤ a) :
    (concatPair s n lower upper).mem a = s.mem a := by
  have hea : s.ea .rbx (lower + 4) = s.ea .rbx lower + 4 := rfl
  exact Mem.storeWord_outside _ _ _ _ a (by omega)

theorem concatPair_xmm_lower {k : ℕ} (hk : k < 4) :
    (concatPair s n lower upper).xmm n k = s.mem (s.ea .rbx lower + k) := by
  have h : (concatPair s n lower upper).mem (s.ea .rbx lower + k) = s.mem (s.ea .rbx lower + k) :=
    concatPair_mem (by omega)
  rw [← h]
  simp [concatPair]

theorem concatPair_xmm_upper {k : ℕ} (hk : k < 4) :
    (concatPair s n lower upper).xmm n (4 + k) = s.mem (s.ea .rbx upper + k) := by
  have hea : s.ea .rbx (lower + 4) = s.ea .rbx lower + 4 := rfl
  have hword : (BitVec.ofNat 64 (s.mem.loadWord (s.ea .rbx upper) 4)).toNat =
      s.mem.loadWord (s.ea .rbx upper) 4 := toNat_ofNat_loadWord _ _ _ (by norm_num)
  simp only [concatPair, setXmm_xmm, if_true, hword]
  rw [← Nat.add_assoc, ← hea, Mem.storeWord_inside _ _ _ _ k hk]
  exact Mem.byteAt_loadWord _ _ _ _ hk

end Concat

end Iqemu64
