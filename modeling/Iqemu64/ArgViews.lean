import Iqemu64.XxPieces

/-!
# Where the bytes of an argument are

The guest side is read from memory: the emulated registers lie in the CPU state at `env`, the stack
arguments at the guest stack pointer, and a large struct behind a pointer. The host side is an
abstract view of x86-64 argument registers and stack argument area, so that real registers and saved
ones can both be meant.
-/

namespace Iqemu64
open ByteMemory ABIArgInfo FlatType

/-- Offsets in the emulated CPU's state. The general registers come first, the stack pointer being
number 31; the vector registers are 256 bytes apart. -/
structure EnvLayout where
  zregs : ℕ
  zregs_ge : 264 ≤ zregs
  zregs_aligned : zregs % 16 = 0

def EnvLayout.least : EnvLayout := ⟨272, by decide, by decide⟩

def EnvLayout.size (L : EnvLayout) : ℕ := L.zregs + 256 * 32

def CpuState (L : EnvLayout) (env b : ℕ) : Prop := env ≤ b ∧ b < env + L.size

def spOffset : ℕ := 8 * 31

def a64Enum2Offset (L : EnvLayout) : Option AReg → ℕ
  | some (.s n) | some (.d n) | some (.q n) => L.zregs + 256 * n
  | some (.w n) | some (.x n) => 8 * n
  | none => 0

namespace ABIArgInfo

def regStride (a : ABIArgInfo AReg) : ℕ :=
  match a.teGetReg 0 with
  | some (.q _) => a.size / a.teNumOfReg
  | _ => 8

def slotAddr (L : EnvLayout) (env sp : ℕ) (a : ABIArgInfo AReg) : ℕ :=
  match a.loc with
  | .regs _ => env + a64Enum2Offset L (a.teGetReg 0)
  | .mem offset _ => sp + offset

def guestAddr (L : EnvLayout) (env sp : ℕ) (m : Mem) (a : ABIArgInfo AReg) (k : ℕ) : ℕ :=
  if a.indirect then m.loadWord (a.slotAddr L env sp) 8 + k
  else
    match a.loc with
    | .regs _ => env + a64Enum2Offset L (a.teGetReg (k / a.regStride)) + k % a.regStride
    | .mem offset _ => sp + offset + k

def guestByte (L : EnvLayout) (env sp : ℕ) (m : Mem) (a : ABIArgInfo AReg) (k : ℕ) : UInt8 :=
  m (a.guestAddr L env sp m k)

end ABIArgInfo

structure HostView where
  reg : XReg → ℕ → UInt8
  stack : ℕ → UInt8

namespace ABIArgInfo

def hostByte (h : HostView) (x : ABIArgInfo XReg) (k : ℕ) : UInt8 :=
  match x.loc with
  | .regs _ => (x.teGetReg (k / 8)).elim 0 fun r => h.reg r (k % 8)
  | .mem offset _ => h.stack (offset + k)

def locInfo (x : ABIArgInfo XReg) : LocInfo :=
  if x.teIsMem then x.teGetMemLocinfo else x.teGetRegLocinfo 0

end ABIArgInfo

def LocInfo.widening : LocInfo → Option (Bool × ℕ)
  | .sext8to32 => some (true, 1)
  | .sext16to32 => some (true, 2)
  | .zext8to32 => some (false, 1)
  | .zext16to32 => some (false, 2)
  | _ => none

/-- The x86-64 location of an argument holds the value `val`, widened as its location information
says. -/
def HostHolds (h : HostView) (x : ABIArgInfo XReg) (val : ℕ → UInt8) : Prop :=
  match x.locInfo.widening with
  | some (signed, width) => ∀ k < 4, x.hostByte h k = extendBytes signed width val k
  | none => ∀ k < x.size, x.hostByte h k = val k

structure AgreeBelow (xl : XxAlloc) (h h' : HostView) : Prop where
  gpr : ∀ g < xl.gprcount, ∀ k < 8, h'.reg (xxGpr g) k = h.reg (xxGpr g) k
  sse : ∀ v < xl.ssecount, ∀ k < 8, h'.reg (.xmm v) k = h.reg (.xmm v) k
  stack : ∀ o < ffiAlign xl.bytes 8, h'.stack o = h.stack o

namespace AgreeBelow

theorem refl (xl : XxAlloc) (h : HostView) : AgreeBelow xl h h :=
  ⟨fun _ _ _ _ => rfl, fun _ _ _ _ => rfl, fun _ _ => rfl⟩

theorem trans {xl : XxAlloc} {h₁ h₂ h₃ : HostView} (h₁₂ : AgreeBelow xl h₁ h₂)
    (h₂₃ : AgreeBelow xl h₂ h₃) : AgreeBelow xl h₁ h₃ :=
  ⟨fun g hg k hk => (h₂₃.gpr g hg k hk).trans (h₁₂.gpr g hg k hk),
    fun v hv k hk => (h₂₃.sse v hv k hk).trans (h₁₂.sse v hv k hk),
    fun o ho => (h₂₃.stack o ho).trans (h₁₂.stack o ho)⟩

theorem mono {xl xl' : XxAlloc} {h h' : HostView} (hh : AgreeBelow xl' h h')
    (hg : xl.gprcount ≤ xl'.gprcount) (hs : xl.ssecount ≤ xl'.ssecount) (hb : xl.bytes ≤ xl'.bytes) :
    AgreeBelow xl h h' := by
  refine ⟨fun g hlt => hh.gpr g (by omega), fun v hlt => hh.sse v (by omega), fun o ho => ?_⟩
  apply hh.stack
  rw [ffiAlign_eight] at ho ⊢
  omega

end AgreeBelow

/-- Only 8- and 16-bit integers are widened, and they have one general register. -/
theorem FlatType.locInfo_widening {t : FlatType} {signed : Bool} {width : ℕ}
    (h : t.locInfo.widening = some (signed, width)) :
    t.size = width ∧ (width = 1 ∨ width = 2) ∧ t.classes = [.integersi] := by
  cases t with
  | scalar s =>
    cases s <;> simp only [locInfo, desc, Scalar.ffi, FfiType.type, Scalar.tag,
      xxLocInfo, LocInfo.widening, Option.some.injEq, Prod.mk.injEq, reduceCtorEq] at h <;>
      obtain ⟨rfl, rfl⟩ := h <;> exact ⟨rfl, by decide, rfl⟩
  | struct s ss => exact absurd h (by simp [locInfo, desc, FfiType.type, xxLocInfo,
      LocInfo.widening])

section Host
variable {t : FlatType} {xl xl' : XxAlloc} {x : ABIArgInfo XReg}

theorem locInfo_xxInRegs : (t.xxInRegs xl).locInfo =
    ((xxPieces t.locInfo t.classes xl.gprcount xl.ssecount).head?.map Prod.snd).getD .noLocInfo := by
  simp [ABIArgInfo.locInfo, ABIArgInfo.teIsMem, ABIArgInfo.teGetRegLocinfo, List.head?_eq_getElem?]

/-- The location information that is used to widen an argument is the one of its type. -/
theorem XxPlaced.widening_eq (h : XxPlaced t xl x xl') :
    x.locInfo.widening = t.locInfo.widening := by
  cases h with
  | stack => rfl
  | regs hfits =>
    rw [locInfo_xxInRegs]
    cases hw : t.locInfo.widening with
    | some w =>
      obtain ⟨signed, width⟩ := w
      obtain ⟨-, -, hcs⟩ := locInfo_widening hw
      rw [← hw, hcs]
      rfl
    | none =>
      cases t.classes with
      | nil => rfl
      | cons c cs =>
        simp only [xxPieces]
        split_ifs
        · rfl
        · exact hw

/-- Register number `j` of an argument in registers, with the counters it lies between. -/
theorem FlatType.XxFits.teGetReg (hfits : t.XxFits xl) {j : ℕ} (hj : j < (t.size + 7) / 8) :
    ∃ r, (t.xxInRegs xl).teGetReg j = some r ∧
      ((∃ i, xl.gprcount ≤ i ∧ i < (t.xxAfterRegs xl).gprcount ∧ r = Iqemu64.xxGpr i) ∨
        ∃ i, xl.ssecount ≤ i ∧ i < (t.xxAfterRegs xl).ssecount ∧ r = .xmm i) := by
  obtain ⟨p, hp, h⟩ := xxPieces_getElem? t.locInfo t.classes xl.gprcount xl.ssecount j
    (by rw [classes_length_of_le hfits.size]; exact hj)
  refine ⟨p.1, ?_, ?_⟩
  · simp only [ABIArgInfo.teGetReg, ABIArgInfo.regs, List.getElem?_map, hp]
    rfl
  · rw [t.countP_not_isSse] at h
    rcases h with ⟨i, h₁, h₂, rfl⟩ | ⟨i, h₁, h₂, rfl⟩
    · exact Or.inl ⟨i, h₁, h₂, rfl⟩
    · exact Or.inr ⟨i, h₁, h₂, rfl⟩

theorem XxPlaced.hostByte_congr (hx : XxPlaced t xl x xl') {h h' : HostView}
    (ha : AgreeBelow xl' h h') {k : ℕ} (hk : k < ffiAlign t.size 8) :
    x.hostByte h' k = x.hostByte h k := by
  rw [ffiAlign_eight] at hk
  cases hx with
  | regs hfits =>
    obtain ⟨r, hr, hcase⟩ := hfits.teGetReg (show k / 8 < (t.size + 7) / 8 by omega)
    simp only [hostByte, hr, Option.elim_some]
    rcases hcase with ⟨i, h₁, h₂, rfl⟩ | ⟨i, h₁, h₂, rfl⟩
    · exact ha.gpr i h₂ _ (Nat.mod_lt k (by norm_num))
    · exact ha.sse i h₂ _ (Nat.mod_lt k (by norm_num))
  | stack =>
    apply ha.stack
    simp only [ffiAlign_eight]
    omega

theorem HostHolds.congr (hx : XxPlaced t xl x xl') {h : HostView} {val val' : ℕ → UInt8}
    (hval : ∀ k < t.size, val k = val' k) (hh : HostHolds h x val) : HostHolds h x val' := by
  unfold HostHolds at hh ⊢
  cases hw : x.locInfo.widening with
  | none =>
    simp only [hw, hx.size_eq] at hh ⊢
    intro k hk
    rw [hh k hk, hval k hk]
  | some w =>
    obtain ⟨signed, width⟩ := w
    simp only [hw] at hh ⊢
    rw [hx.widening_eq] at hw
    obtain ⟨hsize, hwidth, -⟩ := locInfo_widening hw
    intro k hk
    rw [hh k hk]
    exact extendBytes_congr signed width _ _ (by omega) (fun i hi => hval i (by omega)) k

/-- Whatever is done with the upper bytes, an argument's own bytes are in its place. -/
theorem HostHolds.hostByte_eq (hx : XxPlaced t xl x xl') {h : HostView} {val : ℕ → UInt8}
    (hh : HostHolds h x val) {k : ℕ} (hk : k < t.size) : x.hostByte h k = val k := by
  unfold HostHolds at hh
  cases hw : x.locInfo.widening with
  | none =>
    simp only [hw, hx.size_eq] at hh
    exact hh k hk
  | some w =>
    obtain ⟨signed, width⟩ := w
    simp only [hw] at hh
    rw [hx.widening_eq] at hw
    obtain ⟨hsize, hwidth, -⟩ := locInfo_widening hw
    rw [hh k (by omega), extendBytes, if_pos (by omega)]

/-- Later arguments do not disturb the location of an earlier one. -/
theorem HostHolds.of_agreeBelow (hx : XxPlaced t xl x xl') {h h' : HostView} {val : ℕ → UInt8}
    (ha : AgreeBelow xl' h h') (hh : HostHolds h x val) : HostHolds h' x val := by
  have hpos := t.size_pos
  have hal := ffiAlign_eight t.size
  unfold HostHolds at hh ⊢
  cases hw : x.locInfo.widening with
  | none =>
    simp only [hw, hx.size_eq] at hh ⊢
    intro k hk
    rw [hx.hostByte_congr ha (by omega)]
    exact hh k hk
  | some w =>
    simp only [hw] at hh ⊢
    intro k hk
    rw [hx.hostByte_congr ha (by omega)]
    exact hh k hk

end Host

theorem aaRegs_length (bank : ℕ → AReg) (start n : ℕ) : (aaRegs bank start n).length = n := by
  simp [aaRegs]

section Guest
variable {L : EnvLayout} {env sp : ℕ} {m : Mem} {bank : ℕ → AReg} {start n size : ℕ}

theorem teGetReg_aaInRegs {j : ℕ} (hj : j < n) :
    (aaInRegs bank start n size).teGetReg j = some (bank (start + j)) := by
  simp [teGetReg, regs, aaRegs, hj]

theorem teNumOfReg_aaInRegs : (aaInRegs bank start n size).teNumOfReg = n := by
  simp [teNumOfReg, regs, aaRegs_length]

theorem mem_regs_aaInRegs {bank : ℕ → AReg} {start n size : ℕ} {r : AReg}
    (h : r ∈ (aaInRegs bank start n size).regs) : ∃ j < n, r = bank (start + j) := by
  obtain ⟨j, hj⟩ := List.mem_iff_getElem?.mp h
  have hlt : j < n := by
    have := (List.getElem?_eq_some_iff.mp hj).1
    rwa [← teNumOfReg, teNumOfReg_aaInRegs] at this
  exact ⟨j, hlt, Option.some.inj (hj.symm.trans (teGetReg_aaInRegs hlt))⟩

theorem regStride_general {g : ℕ} (hn : 0 < n) : (aaInRegs .x g n size).regStride = 8 := by
  rw [regStride, teGetReg_aaInRegs hn]

theorem regStride_vector {v elems width : ℕ} (hpos : 0 < elems) :
    (aaInRegs .q v elems (elems * width)).regStride = width := by
  rw [regStride, teGetReg_aaInRegs hpos, teNumOfReg_aaInRegs]
  exact Nat.mul_div_cancel_left width hpos

theorem guestAddr_general {g k : ℕ} (hk : k < 8 * n) :
    (aaInRegs .x g n size).guestAddr L env sp m k = env + 8 * g + k := by
  have hstride : (aaInRegs .x g n size).regStride = 8 := regStride_general (by omega)
  have hreg : (aaInRegs .x g n size).teGetReg (k / 8) = some (.x (g + k / 8)) :=
    teGetReg_aaInRegs (by omega)
  simp only [guestAddr, Bool.false_eq_true, if_false, hstride, hreg, a64Enum2Offset]
  omega

theorem guestAddr_vector {v elems width k : ℕ} (hw : 0 < width) (hk : k < elems * width) :
    (aaInRegs .q v elems (elems * width)).guestAddr L env sp m k =
      env + (L.zregs + 256 * (v + k / width)) + k % width := by
  have hpos : 0 < elems := Nat.pos_of_mul_pos_right (Nat.zero_lt_of_lt hk)
  have hstride : (aaInRegs .q v elems (elems * width)).regStride = width := regStride_vector hpos
  have hreg : (aaInRegs .q v elems (elems * width)).teGetReg (k / width) =
      some (.q (v + k / width)) := teGetReg_aaInRegs ((Nat.div_lt_iff_lt_mul hw).mpr hk)
  simp only [guestAddr, Bool.false_eq_true, if_false, hstride, hreg, a64Enum2Offset]

theorem guestAddr_pointer {a : ABIArgInfo AReg} (h : a.indirect = true) (k : ℕ) :
    a.guestAddr L env sp m k = m.loadWord (a.slotAddr L env sp) 8 + k := by
  rw [guestAddr, if_pos h]

theorem guestAddr_congr {a : ABIArgInfo AReg} {m' : Mem} (h : a.indirect = true →
    ∀ k < 8, m' (a.slotAddr L env sp + k) = m (a.slotAddr L env sp + k)) :
    a.guestAddr L env sp m' = a.guestAddr L env sp m := by
  funext k
  unfold guestAddr
  split_ifs with hind
  · rw [Mem.loadWord_congr _ _ _ _ (h hind)]
  · rfl

end Guest

/-- The guest registers, the stack arguments and the struct behind a pointer lie in `Out`. -/
theorem AaPlaced.guestAddr_mem {L : EnvLayout} {env sp aaBytes : ℕ} {m : Mem} (Out : ℕ → Prop)
    {t : FlatType} {al al' : AaAlloc} {a : ABIArgInfo AReg} (h : AaPlaced t al a al')
    (henv : ∀ o < L.size, Out (env + o)) (hstack : ∀ o < aaBytes, Out (sp + o))
    (hfit : al'.stackOffset ≤ aaBytes)
    (hptr : a.indirect = true → ∀ k < a.size, Out (a.guestAddr L env sp m k)) :
    ∀ k < a.size, Out (a.guestAddr L env sp m k) := by
  have hL : L.size = L.zregs + 256 * 32 := rfl
  have hzregs := L.zregs_ge
  cases h with
  | vector hv hfits =>
    intro k hk
    obtain ⟨h1, h4, hw, hsize⟩ := vector_spec hv
    simp only [hsize] at hk ⊢
    rw [guestAddr_vector (by omega) hk, Nat.add_assoc]
    apply henv
    rcases hw with rfl | rfl <;> omega
  | general hv h16 hfits =>
    intro k hk
    simp only at hk
    rw [guestAddr_general (by omega), Nat.add_assoc]
    exact henv _ (by omega)
  | pointer hv h16 hfits => exact hptr rfl
  | stackVector hv =>
    intro k hk
    simp only at hk hfit
    change Out (sp + _ + k)
    rw [Nat.add_assoc]
    exact hstack _ (by omega)
  | stackGeneral hv h16 =>
    intro k hk
    simp only at hk hfit
    change Out (sp + _ + k)
    rw [Nat.add_assoc]
    exact hstack _ (by omega)
  | stackPointer hv h16 => exact hptr rfl

theorem AaPlaced.slotAddr_mem {L : EnvLayout} {env sp aaBytes : ℕ} (Out : ℕ → Prop)
    {t : FlatType} {al al' : AaAlloc} {a : ABIArgInfo AReg} (h : AaPlaced t al a al')
    (henv : ∀ o < L.size, Out (env + o)) (hstack : ∀ o < aaBytes, Out (sp + o))
    (hfit : al'.stackOffset ≤ aaBytes) (hind : a.indirect = true) :
    ∀ k < 8, Out (a.slotAddr L env sp + k) := by
  have hL : L.size = L.zregs + 256 * 32 := rfl
  have hzregs := L.zregs_ge
  intro k hk
  cases h with
  | pointer hv h16 hfits =>
    change Out (env + a64Enum2Offset L ((aaInRegs .x al.gprcount 1 t.size).teGetReg 0) + k)
    rw [teGetReg_aaInRegs zero_lt_one, a64Enum2Offset, Nat.add_assoc]
    exact henv _ (by omega)
  | stackPointer hv h16 =>
    simp only at hfit
    change Out (sp + _ + k)
    rw [Nat.add_assoc]
    exact hstack _ (by omega)
  | _ => exact absurd hind (by simp)

end Iqemu64
