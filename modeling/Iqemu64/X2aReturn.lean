import Iqemu64.X2aExit
import Iqemu64.X2aCall
import Iqemu64.DyExit

/-!
# Delivery of results, guest to host

A result in registers arrives in the saved registers of the caller, unless a vector register is to be
loaded from `x1`, which is not aligned. A result in memory arrives in the caller's buffer, but the code
never sets the saved `rax` to the buffer's address, as the System V convention requires.
-/

namespace Iqemu64
open ByteMemory X64 List Function Transfer State ABIArgInfo

/-- The buffer that the host caller passed in `rdi`. The entry passes it on in `x8`. -/
def x2aRetPtr (s : State) : ℕ := s.mem.loadWord (x2aCtx s + x64Enum2Offset .rdi) 8

def x2aHostRetAddr (ctx ptr : ℕ) (x : ABIArgInfo XReg) (k : ℕ) : ℕ :=
  if x.indirect then ptr + k else ctx + (x.teGetReg (k / 8)).elim 0 x64Enum2Offset + k % 8

/-- A guest function has returned: the CPU state and the saved registers are aligned and lie apart from
each other and from a buffer for the result. -/
structure X2aExitReady (L : EnvLayout) (r : Option FlatType) (x : ABIArgInfo XReg) (s : State) :
    Prop where
  env_aligned : x2aEnv s % 16 = 0
  ctx_aligned : x2aCtx s % 16 = 0
  ctx_apart : ∀ o < 256, ¬ CpuState L (x2aEnv s) (x2aCtx s + o)
  buffer_apart : x.indirect = true → ∀ k < retSize r, ¬ CpuState L (x2aEnv s) (x2aRetPtr s + k) ∧
    ¬ (x2aCtx s ≤ x2aRetPtr s + k ∧ x2aRetPtr s + k < x2aCtx s + 256)

/-- The emitted code runs to its end, and the caller finds the result and, if it is in memory, its
address in `rax`. -/
def X2aReturns (L : EnvLayout) (r : Option FlatType) (aaInfo : ABIFnInfo AReg)
    (xxInfo : ABIFnInfo XReg) (s : State) (E : BridgeExternals) : Prop :=
  ∃ code s', abiX2aExitTranslation L aaInfo xxInfo = some code ∧ run E code s = some s' ∧
    (∀ k < retSize r, s'.mem (x2aHostRetAddr (x2aCtx s) (x2aRetPtr s) xxInfo.rinfo k) =
      s.mem (aaInfo.rinfo.guestRetAddr L (x2aEnv s) (x2aRetPtr s) k)) ∧
    (xxInfo.rinfo.indirect = true →
      s'.mem.loadWord (x2aCtx s + x64Enum2Offset .rax) 8 = x2aRetPtr s)

section Result
variable {L : EnvLayout} {r : Option FlatType} {a : ABIArgInfo AReg} {x : ABIArgInfo XReg} {s : State}
  (E : BridgeExternals)

def SavedRegs (ctx b : ℕ) : Prop := ctx ≤ b ∧ b < ctx + 256

structure X2aResultDone (L : EnvLayout) (r : Option FlatType) (a : ABIArgInfo AReg)
    (x : ABIArgInfo XReg) (s s' : State) : Prop where
  rdi : s'.gpr .rdi = s.gpr .rdi
  rsi : s'.gpr .rsi = s.gpr .rsi
  holds : ∀ k < retSize r, s'.mem (x2aHostRetAddr (x2aCtx s) (x2aRetPtr s) x k) =
    s.mem (a.guestRetAddr L (x2aEnv s) (x2aRetPtr s) k)
  saved : x.indirect = true → ∀ b, SavedRegs (x2aCtx s) b → s'.mem b = s.mem b

def X2aResultSpec (L : EnvLayout) (r : Option FlatType) (a : ABIArgInfo AReg) (x : ABIArgInfo XReg)
    (s : State) : Prop :=
  ∃ code, x2aExitResult L a x = some code ∧ (run E code s ≠ none ↔ VectorsAligned a x) ∧
    ∀ s', run E code s = some s' → X2aResultDone L r a x s s'

theorem x2aResult_transfers {ts : List Transfer}
    (hcode : x2aExitResult L a x = some (ts.flatMap code)) (hx : x.indirect = false)
    (hb : ∀ t ∈ ts, t.Based) (halign : (∀ t ∈ ts, t.Aligned s) ↔ VectorsAligned a x)
    (hbrings : Brings (SavedRegs (x2aCtx s)) (retSize r)
      (x2aHostRetAddr (x2aCtx s) (x2aRetPtr s) x) (a.guestRetAddr L (x2aEnv s) (x2aRetPtr s))
      (ts.map fun t => t.move s)) : X2aResultSpec E L r a x s := by
  obtain ⟨hok, hspec⟩ := run_transfers E hb s
  refine ⟨_, hcode, hok.trans halign, fun s' hs' => ?_⟩
  obtain ⟨hmem, hgpr⟩ := hspec s' hs'
  refine ⟨hgpr _ (by decide), hgpr _ (by decide), fun k hk => ?_, by simp [hx]⟩
  rw [hmem]
  exact hbrings.inside s.mem hk

theorem X2aExitReady.not_saved (h : X2aExitReady L r x s) {o : ℕ} (ho : o < L.size) :
    ¬ SavedRegs (x2aCtx s) (x2aEnv s + o) := by
  rintro ⟨h₁, h₂⟩
  refine h.ctx_apart (x2aEnv s + o - x2aCtx s) (by omega) ?_
  unfold CpuState
  omega

theorem x2aHostRetAddr_one {ctx ptr k : ℕ} {p : XReg × LocInfo} (hk : k < 8) :
    x2aHostRetAddr ctx ptr { loc := .regs [p] } k = ctx + x64Enum2Offset p.1 + k := by
  rw [x2aHostRetAddr, Nat.div_eq_of_lt hk, Nat.mod_eq_of_lt hk]
  rfl

theorem x2aHostRetAddr_two {ctx ptr k : ℕ} {p q : XReg × LocInfo} (hk : k < 16) :
    x2aHostRetAddr ctx ptr { loc := .regs [p, q] } k =
      ctx + x64Enum2Offset (if k < 8 then p.1 else q.1) + k % 8 := by
  by_cases h8 : k < 8
  · rw [if_pos h8, x2aHostRetAddr, Nat.div_eq_of_lt h8]
    rfl
  · rw [if_neg h8, x2aHostRetAddr, show k / 8 = 1 by omega]
    rfl

def exitTransfer (width : Width) (src : ℕ) (x : XReg) (upper : ℕ) : Transfer :=
  ⟨width, .rdi, src, .rsi, x64Enum2Offset x + upper⟩

theorem exitTransfer_covers {width : Width} {src upper : ℕ} {y : XReg}
    (hy : x64Enum2Offset y + upper + width.bytes ≤ 256) :
    ∀ b, ((exitTransfer width src y upper).move s).Covers b → SavedRegs (x2aCtx s) b := by
  rintro b ⟨h₁, h₂⟩
  rw [Move.slot_of_none rfl] at h₂
  simp only [exitTransfer, move, ea] at h₁ h₂
  unfold SavedRegs x2aCtx
  omega

theorem exitTransfer_aligned (h : X2aExitReady L r x s) {width : Width} {src : ℕ} {y : XReg}
    (hw : width = .wide → y.isXmm = true ∧ src % 16 = 0) :
    (exitTransfer width src y 0).Aligned s := by
  intro hwide
  obtain ⟨hy, hsrc⟩ := hw hwide
  have henv : (s.gpr .rdi).toNat % 16 = 0 := h.env_aligned
  have hctx : (s.gpr .rsi).toNat % 16 = 0 := h.ctx_aligned
  simp only [exitTransfer, ea]
  cases y <;> cases hy
  simp only [x64Enum2Offset]
  omega

theorem x2aResult_one {p : XReg × LocInfo} (width : Width) (src : ℕ)
    (h : X2aExitReady L r { loc := .regs [p] } s)
    (hcode : x2aExitResult L a { loc := .regs [p] } =
      some ([exitTransfer width src p.1 0].flatMap code))
    (hwide : width = .wide → p.1.isXmm = true ∧ src % 16 = 0)
    (hvec : VectorsAligned a { loc := .regs [p] })
    (hoff : x64Enum2Offset p.1 + width.bytes ≤ 256) (hsrc : src + 8 ≤ L.size)
    (hsize : retSize r ≤ 8 ∧ retSize r ≤ width.bytes)
    (hguest : ∀ k < retSize r, a.guestRetAddr L (x2aEnv s) (x2aRetPtr s) k = x2aEnv s + src + k) :
    X2aResultSpec E L r a { loc := .regs [p] } s := by
  refine x2aResult_transfers E hcode rfl ?_ ?_ ?_
  · simp [Transfer.Based, exitTransfer]
  · refine iff_of_true (fun u hu => ?_) hvec
    rw [mem_singleton.mp hu]
    exact exitTransfer_aligned h hwide
  · refine brings_one (exitTransfer_covers hoff) (fun k hk => ?_) rfl fun k hk => ⟨?_, ?_, ?_⟩
    · rw [hguest k hk, Nat.add_assoc]
      exact h.not_saved (by omega)
    · exact lt_of_lt_of_le hk hsize.2
    · rw [x2aHostRetAddr_one (by omega)]
      rfl
    · rw [hguest k hk]
      rfl

theorem x2aResult_two {p q : XReg × LocInfo} (w v : Width) (src src' : ℕ)
    (h : X2aExitReady L r { loc := .regs [p, q] } s)
    (hcode : x2aExitResult L a { loc := .regs [p, q] } =
      some ([exitTransfer w src p.1 0, exitTransfer v src' q.1 0].flatMap code))
    (halign : (∀ t ∈ [exitTransfer w src p.1 0, exitTransfer v src' q.1 0], t.Aligned s) ↔
      VectorsAligned a { loc := .regs [p, q] })
    (hp : x64Enum2Offset p.1 + w.bytes ≤ 256 ∧ 8 ≤ w.bytes)
    (hq : x64Enum2Offset q.1 + v.bytes ≤ 256 ∧ 8 ≤ v.bytes)
    (hdisj : x64Enum2Offset p.1 + 8 ≤ x64Enum2Offset q.1 ∨
      x64Enum2Offset q.1 + v.bytes ≤ x64Enum2Offset p.1)
    (hsrc : src + 8 ≤ L.size ∧ src' + 8 ≤ L.size) (hsize : retSize r ≤ 16)
    (hguest : ∀ k < retSize r, a.guestRetAddr L (x2aEnv s) (x2aRetPtr s) k =
      if k < 8 then x2aEnv s + src + k else x2aEnv s + src' + (k - 8)) :
    X2aResultSpec E L r a { loc := .regs [p, q] } s := by
  refine x2aResult_transfers E hcode rfl ?_ halign ?_
  · simp [Transfer.Based, exitTransfer]
  · refine brings_two (exitTransfer_covers hp.1) (exitTransfer_covers hq.1) (fun k hk => ?_) rfl rfl ?_
      fun k hk => ?_
    · rw [hguest k hk]
      split_ifs
      · rw [Nat.add_assoc]
        exact h.not_saved (by omega)
      · rw [Nat.add_assoc]
        exact h.not_saved (by omega)
    · simp only [exitTransfer, move, ea]
      omega
    · rw [hguest k hk, x2aHostRetAddr_two (by omega)]
      by_cases h8 : k < 8
      · rw [if_pos h8, if_pos h8, Nat.mod_eq_of_lt h8]
        refine Or.inl ⟨k, ?_, rfl, rfl, ?_⟩
        · simp only [exitTransfer, move]
          omega
        · simp only [exitTransfer, move, ea, x2aCtx]
          omega
      · rw [if_neg h8, if_neg h8]
        refine Or.inr ⟨k - 8, ?_, ?_, rfl⟩
        · simp only [exitTransfer, move]
          omega
        · rw [show k % 8 = k - 8 by omega]
          rfl

/-- Single-precision members side by side in vector registers. -/
theorem x2aResult_halves {n : ℕ} {xs : List (XReg × LocInfo)} (h : X2aExitReady L r { loc := .regs xs } s)
    (hn : n ≤ 4) (hcode : x2aExitResult L { loc := .regs (aaRegs .s 0 n) } { loc := .regs xs } =
      some (((range n).map fun j => exitTransfer .half (L.zregs + 256 * j) (.xmm (j / 2))
        (4 * (j % 2))).flatMap code))
    (hsize : retSize r = 4 * n)
    (hhost : ∀ k < 4 * n, x2aHostRetAddr (x2aCtx s) (x2aRetPtr s) { loc := .regs xs } k =
      x2aCtx s + x64Enum2Offset (.xmm (k / 8)) + k % 8) :
    X2aResultSpec E L r { loc := .regs (aaRegs .s 0 n) } { loc := .regs xs } s := by
  have hbank : ∀ j, (AReg.s j).width = 4 ∧ a64Enum2Offset L (some (.s j)) = L.zregs + 256 * j :=
    fun j => ⟨rfl, rfl⟩
  refine x2aResult_transfers E hcode rfl ?_ (iff_of_true ?_ ?_) ?_
  · intro u hu
    obtain ⟨j, -, rfl⟩ := mem_map.mp hu
    exact ⟨by simp [exitTransfer], by simp [exitTransfer]⟩
  · intro u hu
    obtain ⟨j, -, rfl⟩ := mem_map.mp hu
    exact fun hw => by cases hw
  · intro q hq _
    have hmem : q.2 ∈ (aaInRegs .s 0 n 0).regs := (of_mem_zip hq).2
    obtain ⟨j, -, hj⟩ := mem_regs_aaInRegs hmem
    rw [hj]
    rfl
  · rw [map_map, hsize]
    refine brings_map_range (w := 4) (by norm_num) le_rfl (fun j hj => exitTransfer_covers ?_)
      (fun k hk => ?_) (fun i j hij hj => ?_) fun k hk => ⟨?_, rfl, ?_, ?_⟩
    · simp only [x64Enum2Offset, Width.bytes]
      omega
    · rw [guestRetAddr_vector hbank hk, Nat.add_assoc]
      refine h.not_saved ?_
      unfold EnvLayout.size
      omega
    · simp only [comp, exitTransfer, move, ea, x64Enum2Offset]
      omega
    · simp only [comp, exitTransfer, move, Width.bytes]
      omega
    · rw [hhost k hk]
      simp only [comp, exitTransfer, move, ea, x64Enum2Offset, x2aCtx]
      omega
    · rw [guestRetAddr_vector hbank hk]
      rfl

theorem x2aResult_buffer {n : ℕ} (hn : n = 3 ∨ n = 4) (hsize : retSize r = 8 * n)
    (h : X2aExitReady L r { loc := .regs [(.rdi, .full)], indirect := true } s) :
    X2aResultSpec E L r { loc := .regs (aaRegs .d 0 n) }
      { loc := .regs [(.rdi, .full)], indirect := true } s := by
  let tr : ℕ → Transfer := fun j => ⟨.word, .rdi, L.zregs + 256 * j, .r8, 8 * j⟩
  let s₁ := s.setGpr .r8 (BitVec.ofNat 64 (x2aRetPtr s))
  have hbank : ∀ j, (AReg.d j).width = 8 ∧ a64Enum2Offset L (some (.d j)) = L.zregs + 256 * j :=
    fun j => ⟨rfl, rfl⟩
  have hcode : x2aExitResult L { loc := .regs (aaRegs .d 0 n) }
      { loc := .regs [(.rdi, .full)], indirect := true } =
        some (.ld .r8 .rsi (x64Enum2Offset .rdi) :: ((range n).map tr).flatMap code) := by
    rcases hn with rfl | rfl <;> rfl
  have hb : ∀ t ∈ (range n).map tr, t.Based := by
    intro u hu
    obtain ⟨j, -, rfl⟩ := mem_map.mp hu
    exact ⟨by simp [tr], by simp [tr]⟩
  obtain ⟨hok, hspec⟩ := run_transfers E hb s₁
  have hrun : run E (.ld .r8 .rsi (x64Enum2Offset .rdi) :: ((range n).map tr).flatMap
      code) s = run E (((range n).map tr).flatMap code) s₁ := rfl
  have hr8 : (s₁.gpr .r8).toNat = x2aRetPtr s := by
    simp only [s₁, setGpr_gpr_same]
    exact toNat_ofNat_loadWord _ _ _ le_rfl
  have hsrc : ∀ k < 8 * n, ¬ (x2aRetPtr s ≤ guestRetAddr L (x2aEnv s) (x2aRetPtr s)
      { loc := .regs (aaRegs .d 0 n) } k ∧ guestRetAddr L (x2aEnv s) (x2aRetPtr s)
      { loc := .regs (aaRegs .d 0 n) } k < x2aRetPtr s + 8 * n) := by
    intro k hk hin
    rw [guestRetAddr_vector hbank hk] at hin
    refine (h.buffer_apart rfl (x2aEnv s + (L.zregs + 256 * (k / 8)) + k % 8 - x2aRetPtr s)
      (by omega)).1 ?_
    unfold CpuState EnvLayout.size
    omega
  have hbrings : Brings (fun b => x2aRetPtr s ≤ b ∧ b < x2aRetPtr s + 8 * n) (8 * n)
      (fun k => x2aRetPtr s + k) (guestRetAddr L (x2aEnv s) (x2aRetPtr s)
        { loc := .regs (aaRegs .d 0 n) }) (((range n).map tr).map fun u => u.move s₁) := by
    rw [map_map]
    refine brings_map_range (w := 8) (by norm_num) le_rfl (fun j hj b hb => ?_) hsrc
      (fun i j hij _ => ?_) fun k hk => ⟨?_, rfl, ?_, ?_⟩
    · rw [Move.Covers, Move.slot_of_none rfl] at hb
      simp only [comp, tr, move, ea, hr8, Width.bytes] at hb
      omega
    · simp only [comp, tr, move, ea]
      omega
    · simp only [comp, tr, move, Width.bytes]
      omega
    · simp only [comp, tr, move, ea, hr8]
      omega
    · rw [guestRetAddr_vector hbank hk]
      rfl
  refine ⟨_, hcode, ?_, fun s' hs' => ?_⟩
  · rw [hrun, hok]
    refine iff_of_true (fun u hu => ?_) ?_
    · obtain ⟨j, -, rfl⟩ := mem_map.mp hu
      exact fun hw => by cases hw
    · rcases hn with rfl | rfl <;> decide
  · rw [hrun] at hs'
    obtain ⟨hmem, hgpr⟩ := hspec s' hs'
    refine ⟨hgpr _ (by decide), hgpr _ (by decide), fun k hk => ?_, fun _ b hb => ?_⟩
    · rw [hsize] at hk
      rw [hmem]
      exact hbrings.inside s.mem hk
    · rw [hmem]
      refine hbrings.outside s.mem fun hin => ?_
      have := (h.buffer_apart rfl (b - x2aRetPtr s) (by omega)).2
      unfold SavedRegs at hb
      omega

theorem x2aExitResult_spec (hr : RetPlaced r a x) (h : X2aExitReady L r x s) :
    X2aResultSpec E L r a x s := by
  have hz := L.zregs_ge
  have hza := L.zregs_aligned
  have hL : L.size = L.zregs + 256 * 32 := rfl
  cases hr with
  | void =>
    refine ⟨[], rfl, iff_of_true (by simp) (by decide), fun s' hs' => ?_⟩
    cases hs'
    exact ⟨rfl, rfl, fun k hk => absurd hk (Nat.not_lt_zero k), fun hx => by cases hx⟩
  | word hs =>
    rename_i t p
    have hp : x64Enum2Offset p.1 = 0 ∧ t.size ≤ 4 ∧
        VectorsAligned { loc := .regs (aaRegs .w 0 1) } { loc := .regs [p] } ∧
        x2aExitResult L { loc := .regs (aaRegs .w 0 1) } { loc := .regs [p] } =
          some ([exitTransfer .word 0 p.1 0].flatMap code) := by
      cases t <;> cases hs <;> exact ⟨rfl, by decide, by decide, rfl⟩
    have hsize : retSize (some (.scalar t)) ≤ 4 := hp.2.1
    refine x2aResult_one E .word 0 h hp.2.2.2 (fun hw => by cases hw) hp.2.2.1 ?_ (by omega)
      ⟨by omega, ?_⟩ fun k hk => ?_
    · rw [hp.1]
      decide
    · exact hsize.trans (by decide)
    · rw [guestRetAddr_word (by omega)]
      rfl
  | general h8 =>
    have hsize : retSize (some _) = 8 := h8
    refine x2aResult_one E .word 0 h rfl (fun hw => by cases hw) (by decide) (by decide) (by omega)
      ⟨hsize.le, hsize.le⟩ fun k hk => ?_
    rw [guestRetAddr_general (by omega)]
    rfl
  | pair hnone h16 hxs =>
    rename_i t xs
    have hsize : retSize (some t) ≤ 16 := h16
    have hguest : ∀ k < retSize (some t), guestRetAddr L (x2aEnv s) (x2aRetPtr s)
        { loc := .regs (aaRegs .x 0 2) } k =
          if k < 8 then x2aEnv s + 0 + k else x2aEnv s + 8 + (k - 8) := by
      intro k hk
      rw [guestRetAddr_general (by omega)]
      split_ifs <;> omega
    -- a wide load from the second register faults
    have hodd : ∀ y, ¬ (exitTransfer .wide 8 y 0).Aligned s := by
      intro y hal
      have := (hal rfl).1
      have henv : (s.gpr .rdi).toNat % 16 = 0 := h.env_aligned
      simp only [exitTransfer, ea] at this
      omega
    have hword : ∀ src y, (exitTransfer .word src y 0).Aligned s := fun src y hw => by cases hw
    rcases hxs with rfl | rfl | rfl | rfl
    · refine x2aResult_two E .word .word 0 8 h rfl (iff_of_true ?_ (by decide)) (by decide) (by decide)
        (by decide) (by omega) hsize hguest
      simp [hword]
    · refine x2aResult_two E .word .wide 0 8 h rfl (iff_of_false ?_ (by decide)) (by decide)
        (by decide) (by decide) (by omega) hsize hguest
      simp [hodd]
    · refine x2aResult_two E .wide .word 0 8 h rfl (iff_of_true ?_ (by decide)) (by decide) (by decide)
        (by decide) (by omega) hsize hguest
      have hfirst : (exitTransfer .wide 0 (.xmm 0) 0).Aligned s :=
        exitTransfer_aligned h fun _ => ⟨rfl, rfl⟩
      simp [hword, hfirst]
    · refine x2aResult_two E .wide .wide 0 8 h rfl (iff_of_false ?_ (by decide)) (by decide)
        (by decide) (by decide) (by omega) hsize hguest
      simp [hodd]
  | float h4 =>
    have hsize : retSize (some _) = 4 := h4
    refine x2aResult_one E .wide L.zregs h rfl (fun _ => ⟨rfl, hza⟩) (by decide) (by decide) (by omega)
      ⟨by omega, hsize.le.trans (by decide)⟩ fun k hk => ?_
    rw [guestRetAddr_vector (w := 4) (fun j => ⟨rfl, rfl⟩) (by omega), Nat.div_eq_of_lt (by omega),
      Nat.mod_eq_of_lt (by omega)]
    rfl
  | double h8 =>
    have hsize : retSize (some _) = 8 := h8
    refine x2aResult_one E .wide L.zregs h rfl (fun _ => ⟨rfl, hza⟩) (by decide) (by decide) (by omega)
      ⟨by omega, hsize.le.trans (by decide)⟩ fun k hk => ?_
    rw [guestRetAddr_vector (w := 8) (fun j => ⟨rfl, rfl⟩) (by omega), Nat.div_eq_of_lt (by omega),
      Nat.mod_eq_of_lt (by omega)]
    rfl
  | doubles2 h16 =>
    have hsize : retSize (some _) = 16 := h16
    refine x2aResult_two E .wide .wide L.zregs (L.zregs + 256) h rfl (iff_of_true ?_ (by decide))
      (by decide) (by decide) (by decide) (by omega) hsize.le fun k hk => ?_
    · have hfirst : (exitTransfer .wide L.zregs (.xmm 0) 0).Aligned s :=
        exitTransfer_aligned h fun _ => ⟨rfl, hza⟩
      have hsecond : (exitTransfer .wide (L.zregs + 256) (.xmm 1) 0).Aligned s :=
        exitTransfer_aligned h fun _ => ⟨rfl, by omega⟩
      simp [hfirst, hsecond]
    · rw [guestRetAddr_vector (w := 8) (fun j => ⟨rfl, rfl⟩) (by omega)]
      split_ifs <;> omega
  | floats2 h8 =>
    have hsize : retSize (some _) = 4 * 2 := h8
    refine x2aResult_halves E h (by norm_num) rfl hsize fun k hk => ?_
    rw [x2aHostRetAddr_one (by omega), Nat.div_eq_of_lt (by omega), Nat.mod_eq_of_lt (by omega)]
  | floats hn hsize =>
    rename_i t n
    have hsize : retSize (some t) = 4 * n := hsize
    refine x2aResult_halves E h (by omega) ?_ hsize fun k hk => ?_
    · rcases hn with rfl | rfl <;> rfl
    · rw [x2aHostRetAddr_two (by omega)]
      split_ifs <;> simp only [x64Enum2Offset] <;> omega
  | doublesMem hn hsize => exact x2aResult_buffer E hn hsize h
  | mem h16 =>
    refine ⟨[], rfl, iff_of_true (by simp) (by decide), fun s' hs' => ?_⟩
    cases hs'
    exact ⟨rfl, rfl, fun k hk => rfl, fun _ b _ => rfl⟩

theorem teGetReg_le_of_mem {xs : List (XReg × LocInfo)} (hxs : ∀ p ∈ xs, x64Enum2Offset p.1 + 8 ≤ 256)
    (indirect : Bool) (j : ℕ) :
    (teGetReg { loc := .regs xs, indirect } j).elim 0 x64Enum2Offset + 8 ≤ 256 := by
  cases hj : teGetReg { loc := .regs xs, indirect } j with
  | none => decide
  | some y =>
    have hy : y ∈ xs.map Prod.fst := mem_of_getElem? hj
    obtain ⟨p, hp, rfl⟩ := mem_map.mp hy
    exact hxs p hp

theorem RetPlaced.savedReg (hr : RetPlaced r a x) (j : ℕ) :
    (x.teGetReg j).elim 0 x64Enum2Offset + 8 ≤ 256 := by
  cases hr with
  | word hs =>
    rename_i t p
    refine teGetReg_le_of_mem (fun q hq => ?_) false j
    rw [mem_singleton.mp hq]
    cases t <;> cases hs <;> decide
  | pair _ _ hxs =>
    refine teGetReg_le_of_mem ?_ false j
    rcases hxs with rfl | rfl | rfl | rfl <;> decide
  | void => exact teGetReg_le_of_mem (by decide) false j
  | _ => exact teGetReg_le_of_mem (by decide) _ j

theorem X2aExitReady.hostRetAddr_apart (h : X2aExitReady L r x s) (hr : RetPlaced r a x) {k : ℕ}
    (hk : k < retSize r) :
    ¬ CpuState L (x2aEnv s) (x2aHostRetAddr (x2aCtx s) (x2aRetPtr s) x k) := by
  unfold x2aHostRetAddr
  split_ifs with hx
  · exact (h.buffer_apart hx k hk).1
  · have := hr.savedReg (k / 8)
    rw [Nat.add_assoc]
    exact h.ctx_apart _ (by omega)

theorem RetPlaced.block_eq (hr : RetPlaced r a x) : x.block = false := by cases hr <;> rfl

/-- The code for a result and the guest stack pointer after it. -/
theorem abiX2aExitTranslation_eq (aaInfo : ABIFnInfo AReg) (xxInfo : ABIFnInfo XReg)
    (hr : RetPlaced r aaInfo.rinfo xxInfo.rinfo) : abiX2aExitTranslation L aaInfo xxInfo =
      (x2aExitResult L aaInfo.rinfo xxInfo.rinfo).map (· ++ x2aExitStack aaInfo.bytes) := by
  have := hr.counts
  unfold abiX2aExitTranslation
  simp only
  rw [if_neg (by omega), if_neg (by omega)]
  simp [hr.block_eq]

theorem x2aExit_spec (aaInfo : ABIFnInfo AReg) (xxInfo : ABIFnInfo XReg)
    (hr : RetPlaced r aaInfo.rinfo xxInfo.rinfo) (h : X2aExitReady L r xxInfo.rinfo s) :
    ∃ code, abiX2aExitTranslation L aaInfo xxInfo = some code ∧
      (run E code s ≠ none ↔ VectorsAligned aaInfo.rinfo xxInfo.rinfo) ∧
      ∀ s', run E code s = some s' →
        (∀ k < retSize r, s'.mem (x2aHostRetAddr (x2aCtx s) (x2aRetPtr s) xxInfo.rinfo k) =
          s.mem (aaInfo.rinfo.guestRetAddr L (x2aEnv s) (x2aRetPtr s) k)) ∧
        (xxInfo.rinfo.indirect = true →
          s'.mem.loadWord (x2aCtx s + x64Enum2Offset .rax) 8 =
            s.mem.loadWord (x2aCtx s + x64Enum2Offset .rax) 8) := by
  have hz := L.zregs_ge
  obtain ⟨code, hcode, halign, hdone⟩ := x2aExitResult_spec E hr h
  have hstack : ∀ u, ∃ u', run E (x2aExitStack aaInfo.bytes) u = some u' ∧
      ∀ b, ¬ CpuState L (x2aEnv u) b → u'.mem b = u.mem b := by
    intro u
    refine ⟨_, rfl, fun b hb => Mem.storeWord_outside _ _ _ _ b ?_⟩
    simp only [ea, setGpr_gpr, reduceCtorEq, if_false, spOffset]
    unfold CpuState x2aEnv EnvLayout.size at hb
    omega
  refine ⟨_, by rw [abiX2aExitTranslation_eq aaInfo xxInfo hr, hcode]; rfl, ?_, fun s' hs' => ?_⟩
  · rw [← halign, run_append]
    cases run E code s with
    | none => simp
    | some u =>
      obtain ⟨u', hu', -⟩ := hstack u
      simp [hu']
  · rw [run_append] at hs'
    obtain ⟨u, hu, hs'⟩ := Option.bind_eq_some_iff.mp hs'
    have hres := hdone u hu
    obtain ⟨u', hu', hout⟩ := hstack u
    obtain rfl := Option.some.inj (hu'.symm.trans hs')
    have henv : x2aEnv u = x2aEnv s := by rw [x2aEnv, hres.rdi, x2aEnv]
    rw [henv] at hout
    refine ⟨fun k hk => ?_, fun hx => ?_⟩
    · rw [hout _ (h.hostRetAddr_apart hr hk), hres.holds k hk]
    · refine Mem.loadWord_congr _ _ _ _ fun k hk => ?_
      have hlt : x64Enum2Offset .rax + k < 256 := by
        simp only [x64Enum2Offset]
        omega
      rw [Nat.add_assoc, hout _ (h.ctx_apart _ hlt)]
      exact hres.saved hx _ ⟨by omega, by omega⟩

end Result

/-- `hostCallState` with the address 196608 in the saved `rdi`. -/
def hostReturnState : State :=
  hostCallState.setMem (update hostCallState.mem 32802 3)

theorem x2aExitReady_hostReturn {r : Option FlatType} {x : ABIArgInfo XReg} :
    X2aExitReady .least r x hostReturnState := by
  have henv : x2aEnv hostReturnState = 4096 := rfl
  have hctx : x2aCtx hostReturnState = 32768 := rfl
  have hptr : x2aRetPtr hostReturnState = 196608 := by decide
  have hL : EnvLayout.least.size = 8464 := rfl
  refine ⟨by rw [henv], by rw [hctx], fun o ho => ?_, fun _ k hk => ?_⟩
  · unfold CpuState
    omega
  · unfold CpuState
    omega

/-- A double and an integer, in `xmm0` and `rax` for the host, in `x0` and `x1` for the guest. -/
def pairResultSignature : Signature where
  ret := ResultType.ofFlat (some (.struct .double [.sint64]))
  args := []
  nfixed := 0
  nfixed_le := Nat.zero_le .zero

/-- The emitted exit gives the host caller what the System V convention requires exactly when no vector
register is loaded from `x1` and, for a result in memory, the saved `rax` is the buffer already. -/
theorem abiX2aExitTranslation_returns_iff (σ : Signature) (r : Option FlatType)
    (hret : σ.ret = ResultType.ofFlat r) :
    ∃ aa xx, σ.fnInfos = some (aa, xx) ∧
      ∀ (L : EnvLayout) (E : BridgeExternals) (isCxxStructor : Bool) (s : State),
        X2aExitReady L r xx.rinfo s →
        (X2aReturns L r aa { xx with isCxxStructor } s E ↔
          VectorsAligned aa.rinfo xx.rinfo ∧ (xx.rinfo.indirect = true →
            s.mem.loadWord (x2aCtx s + x64Enum2Offset .rax) 8 = x2aRetPtr s)) := by
  refine ⟨σ.aaInfo, σ.xxInfo, σ.fnInfos_eq, fun L E flag s h => ?_⟩
  have hr : RetPlaced r σ.aaInfo.rinfo σ.xxInfo.rinfo := by
    rw [Signature.aaInfo, Signature.xxInfo, hret]
    exact retPlaced_ofFlat r
  obtain ⟨code, hcode, halign, hspec⟩ := x2aExit_spec E σ.aaInfo
    { σ.xxInfo with isCxxStructor := flag } hr h
  constructor
  · rintro ⟨code', s', hcode', hrun, -, hrax⟩
    obtain rfl := Option.some.inj (hcode.symm.trans hcode')
    refine ⟨halign.mp (by rw [hrun]; exact Option.some_ne_none s'), fun hx => ?_⟩
    rw [← (hspec s' hrun).2 hx]
    exact hrax hx
  · rintro ⟨hvec, hrax⟩
    obtain ⟨s', hs'⟩ := Option.ne_none_iff_exists'.mp (halign.mpr hvec)
    obtain ⟨hholds, hsaved⟩ := hspec s' hs'
    exact ⟨code, s', hcode, hs', hholds, fun hx => (hsaved hx).trans (hrax hx)⟩

theorem abiX2aExitTranslation_returns_pair :
    X2aExitReady .least (some (.struct .double [.sint64])) pairResultSignature.xxInfo.rinfo
        hostReturnState ∧
      X2aReturns .least (some (.struct .double [.sint64])) pairResultSignature.aaInfo
        { pairResultSignature.xxInfo with isCxxStructor := false } hostReturnState idleExternals := by
  have hready : X2aExitReady .least (some (.struct .double [.sint64]))
      pairResultSignature.xxInfo.rinfo hostReturnState := x2aExitReady_hostReturn
  obtain ⟨aa, xx, hinfos, h⟩ := abiX2aExitTranslation_returns_iff pairResultSignature
    (some (.struct .double [.sint64])) rfl
  obtain ⟨rfl, rfl⟩ := Prod.mk.inj (Option.some.inj
    (pairResultSignature.fnInfos_eq.symm.trans hinfos))
  exact ⟨hready, (h .least idleExternals false hostReturnState hready).mpr ⟨by decide, by decide⟩⟩

/-- Four doubles arrive in the buffer at 196608, but the saved `rax` stays zero. -/
theorem abiX2aExitTranslation_raxUnset : ∃ aa xx, rectSignature.fnInfos = some (aa, xx) ∧
    X2aExitReady .least (some (.struct .double [.double, .double, .double])) xx.rinfo hostReturnState ∧
    ¬ X2aReturns .least (some (.struct .double [.double, .double, .double])) aa xx hostReturnState
      idleExternals := by
  have hready : X2aExitReady .least (some (.struct .double [.double, .double, .double]))
      rectSignature.xxInfo.rinfo hostReturnState := x2aExitReady_hostReturn
  refine ⟨_, _, rectSignature.fnInfos_eq, hready, ?_⟩
  rintro ⟨code', s', hcode', hrun, -, hrax⟩
  obtain ⟨code, hcode, -, hspec⟩ := x2aExit_spec idleExternals rectSignature.aaInfo
    rectSignature.xxInfo (retPlaced_ofFlat (some (.struct .double [.double, .double, .double]))) hready
  obtain rfl := Option.some.inj (hcode.symm.trans hcode')
  have hsame := (hspec s' hrun).2 (by decide)
  rw [hrax (by decide)] at hsame
  exact absurd hsame (by decide)

end Iqemu64
