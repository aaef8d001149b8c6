import Iqemu64.Returns
import Iqemu64.DyEntry

/-!
# Dynamic result translation, host to guest

`abiDyA2xExitTranslation` brings the result of a host function from the fake registers, or from the
buffer that was passed for it, to where the guest expects it. An assertion that does not hold and an
abort are `none`.
-/

namespace Iqemu64
open ByteMemory List ABIArgInfo

/-- `extend_ret_by_reg_loc_info`: how the result is widened; the assertions are `none`. -/
def extendRetByRegLocInfo (x : XReg) (info : LocInfo) : Option (Option (Bool × ℕ)) :=
  match x with
  | .al | .dl =>
    if info = .sext8to32 then some (some (true, 1))
    else if info = .zext8to32 ∨ info = .full then some (some (false, 1))
    else none
  | .ax =>
    if info = .sext16to32 then some (some (true, 2))
    else if info = .zext16to32 ∨ info = .full then some (some (false, 2))
    else none
  | _ => some none

section Code
variable (L : EnvLayout) (env argSpace sret : ℕ)

def dyExitOneByOne (xs : List (XReg × LocInfo)) (aa : ABIArgInfo AReg) : Option (List Move) :=
  xs.zipIdx.mapM fun ((x, info), j) =>
    let move : Move :=
      { dst := env + a64Enum2Offset L (aa.teGetReg j), src := argSpace + x64Enum2Ptr x, size := 8 }
    if x.isXmm then some { move with size := 16 }
    else (extendRetByRegLocInfo x info).map fun w => { move with widening := w }

def dyExitSplit (xs : List XReg) (as : List AReg) : Option (List Move) :=
  let half (a : AReg) (x : XReg) (upper : ℕ) : Move :=
    { dst := env + a64Enum2Offset L (some a), src := argSpace + x64Enum2Ptr x + upper, size := 4 }
  match xs, as with
  | [x], [a₀, a₁] =>
    if x = .xmm 0 ∧ a₀ = .s 0 ∧ a₀.code + 1 = a₁.code then some [half a₀ x 0, half a₁ x 4] else none
  | [x₀, x₁], [a₀, a₁, a₂] =>
    if x₀ = .xmm 0 ∧ x₀.code + 1 = x₁.code ∧ a₀ = .s 0 ∧ a₀.code + 1 = a₁.code ∧
        a₁.code + 1 = a₂.code then
      some [half a₀ x₀ 0, half a₁ x₀ 4, half a₂ x₁ 0]
    else none
  | [x₀, x₁], [a₀, a₁, a₂, a₃] =>
    if x₀ = .xmm 0 ∧ x₀.code + 1 = x₁.code ∧ a₀ = .s 0 ∧ a₀.code + 1 = a₁.code ∧
        a₁.code + 1 = a₂.code then
      some [half a₀ x₀ 0, half a₁ x₀ 4, half a₂ x₁ 0, half a₃ x₁ 4]
    else none
  | _, _ => none

def dyExitFromMem (as : List AReg) : Option (List Move) :=
  let words (width : ℕ) : List Move := as.zipIdx.map fun (a, j) =>
    { dst := env + a64Enum2Offset L (some a), src := sret + width * j, size := width }
  if as.IsChain fun a b => a.code + 1 = b.code then
    match as.head? with
    | some (.d 0) => some (words 8)
    | some (.q 0) => some (words 16)
    | _ => none
  else none

def dyExitMoves (aa : ABIArgInfo AReg) (xx : ABIArgInfo XReg) : Option (List Move) :=
  match xx.indirect, aa.indirect, xx.loc with
  | false, false, .regs xs =>
    if xx.teNumOfReg = aa.teNumOfReg then dyExitOneByOne L env argSpace xs aa
    else if xx.teNumOfReg < aa.teNumOfReg then dyExitSplit L env argSpace xx.regs aa.regs
    else none
  | false, false, .mem _ _ => none
  | false, true, _ => none
  | true, false, _ => dyExitFromMem L env sret aa.regs
  | true, true, _ => some []

/-- `abi_dy_a2x_exit_translation`. -/
def abiDyA2xExitTranslation (aaInfo : ABIFnInfo AReg) (xxInfo : ABIFnInfo XReg) (m : Mem) :
    Option Mem :=
  let xxRegCnt := xxInfo.rinfo.teNumOfReg
  let aaRegCnt := aaInfo.rinfo.teNumOfReg
  if xxInfo.isCxxStructor ∧ (xxRegCnt = 0 ∧ aaRegCnt = 1 ∨ xxRegCnt = 1 ∧ aaRegCnt = 0) then some m
  else (dyExitMoves L env argSpace sret aaInfo.rinfo xxInfo.rinfo).map fun mvs => runMoves mvs m

end Code

/-- Address of byte `k` of a result that the host function has left. A result in memory is in the
buffer `sret` or, if the guest passed an address in `x8`, there. -/
def dyHostRetAddr (argSpace sret x8 : ℕ) (a : ABIArgInfo AReg) (x : ABIArgInfo XReg) (k : ℕ) : ℕ :=
  if x.indirect then (if a.indirect then x8 else sret) + k
  else argSpace + (x.teGetReg (k / 8)).elim 0 x64Enum2Ptr + k % 8

/-- The guest's place of a result holds the value `val`, an 8- or 16-bit integer widened. -/
def GuestRetHolds (L : EnvLayout) (env : ℕ) (m : Mem) (r : Option FlatType) (a : ABIArgInfo AReg)
    (val : ℕ → UInt8) : Prop :=
  match retWidening r with
  | some (signed, width) => ∀ k < 4,
    m (a.guestRetAddr L env (m.loadWord (env + 8 * 8) 8) k) = extendBytes signed width val k
  | none => ∀ k < retSize r, m (a.guestRetAddr L env (m.loadWord (env + 8 * 8) 8) k) = val k

structure DyExitSeparate (L : EnvLayout) (env argSpace sret : ℕ) (r : Option FlatType)
    (a : ABIArgInfo AReg) (x : ABIArgInfo XReg) : Prop where
  regs : ∀ o < registerArgsSize, ¬ (env ≤ argSpace + o ∧ argSpace + o < env + L.size)
  sret : x.indirect = true → a.indirect = false → ∀ o < retSize r,
    ¬ (env ≤ sret + o ∧ sret + o < env + L.size)

section Result
variable {L : EnvLayout} {env argSpace sret : ℕ} {r : Option FlatType} {a : ABIArgInfo AReg}
  {x : ABIArgInfo XReg}

theorem brings_vectors {bank : ℕ → AReg} {w n : ℕ} {src : ℕ → ℕ} {f : ℕ → Move} (x8 : ℕ)
    (hbank : ∀ j, (bank j).width = w ∧ a64Enum2Offset L (some (bank j)) = L.zregs + 256 * j)
    (hw : 0 < w) (hn : n ≤ 4)
    (hf : ∀ j, (f j).dst = env + (L.zregs + 256 * j) ∧ (f j).widening = none ∧ w ≤ (f j).size ∧
      (f j).size ≤ 16) (hsrc : ∀ k < w * n, (f (k / w)).src + k % w = src k)
    (hout : ∀ k < w * n, ¬ CpuState L env (src k)) :
    Brings (CpuState L env) (w * n)
      (guestRetAddr L env x8 { loc := .regs (aaRegs bank 0 n) }) src
      ((range n).map f) := by
  have hL : L.size = L.zregs + 256 * 32 := rfl
  refine brings_map_range hw le_rfl (fun j hj b hb => ?_) hout (fun i j hij hj => ?_) fun k hk => ?_
  · obtain ⟨hdst, hnone, -, h16⟩ := hf j
    rw [Move.Covers, Move.slot_of_none hnone, hdst] at hb
    unfold CpuState
    omega
  · obtain ⟨hdst, -, hle, h16⟩ := hf i
    rw [hdst, (hf j).1]
    omega
  · obtain ⟨hdst, hnone, hle, -⟩ := hf (k / w)
    have hlt := Nat.mod_lt k hw
    have hj : k / w < n := Nat.div_lt_of_lt_mul hk
    exact ⟨by omega, hnone, by rw [hdst, guestRetAddr_vector hbank hk], hsrc k hk⟩

theorem brings_general {n size : ℕ} {src : ℕ → ℕ} {f : ℕ → Move} (x8 : ℕ) (hn : n ≤ 2)
    (hsize : size ≤ 8 * n)
    (hf : ∀ j, (f j).dst = env + 8 * j ∧ (f j).widening = none ∧ 8 ≤ (f j).size ∧ (f j).size ≤ 16)
    (hsrc : ∀ k < size, (f (k / 8)).src + k % 8 = src k)
    (hout : ∀ k < size, ¬ CpuState L env (src k)) :
    Brings (CpuState L env) size
      (guestRetAddr L env x8 { loc := .regs (aaRegs .x 0 n) }) src
      ((range n).map f) := by
  have hz := L.zregs_ge
  have hL : L.size = L.zregs + 256 * 32 := rfl
  refine brings_map_range (w := 8) (by norm_num) hsize (fun j hj b hb => ?_) hout
    (fun i j hij hj => ?_) fun k hk => ?_
  · obtain ⟨hdst, hnone, -, h16⟩ := hf j
    rw [Move.Covers, Move.slot_of_none hnone, hdst] at hb
    unfold CpuState
    omega
  · rw [(hf i).1, (hf j).1]
    omega
  · obtain ⟨hdst, hnone, hle, -⟩ := hf (k / 8)
    refine ⟨by omega, hnone, ?_, hsrc k hk⟩
    rw [hdst, guestRetAddr_general (by omega)]
    omega

theorem dyHostRetAddr_two {p q : XReg × LocInfo} {x8 k : ℕ} (hk : k < 16) :
    dyHostRetAddr argSpace sret x8 a { loc := .regs [p, q] } k =
      argSpace + x64Enum2Ptr (if k < 8 then p.1 else q.1) + k % 8 := by
  by_cases h8 : k < 8
  · rw [if_pos h8, dyHostRetAddr, Nat.div_eq_of_lt h8]
    rfl
  · rw [if_neg h8, dyHostRetAddr, show k / 8 = 1 by omega]
    rfl

theorem dyHostRetAddr_one {p : XReg × LocInfo} {x8 k : ℕ} (hk : k < 8) :
    dyHostRetAddr argSpace sret x8 a { loc := .regs [p] } k = argSpace + x64Enum2Ptr p.1 + k := by
  rw [dyHostRetAddr, Nat.div_eq_of_lt hk, Nat.mod_eq_of_lt hk]
  rfl

/-- A result in a single vector register on both sides. -/
theorem brings_single {bank : ℕ → AReg} {w : ℕ} (h : DyExitSeparate L env argSpace sret r a x)
    (x8 : ℕ)
    (hbank : ∀ j, (bank j).width = w ∧ a64Enum2Offset L (some (bank j)) = L.zregs + 256 * j)
    (hpos : 0 < w) (hle : w ≤ 8) :
    Brings (CpuState L env) (w * 1)
      (guestRetAddr L env x8 { loc := .regs (aaRegs bank 0 1) })
      (dyHostRetAddr argSpace sret x8 { loc := .regs (aaRegs bank 0 1) }
        { loc := .regs [(.xmm 0, .full)] })
      ((range 1).map fun j => ⟨env + (L.zregs + 256 * j), argSpace + (48 + 16 * j), 16, none⟩) := by
  refine brings_vectors x8 hbank hpos (by norm_num) (fun j => ⟨rfl, rfl, by simp only; omega, le_rfl⟩)
    (fun k hk => ?_) fun k hk => ?_
  · rw [dyHostRetAddr_one (by omega), Nat.div_eq_of_lt (by omega), Nat.mod_eq_of_lt (by omega)]
    rfl
  · rw [dyHostRetAddr_one (by omega), Nat.add_assoc]
    exact h.regs _ (by simp only [x64Enum2Ptr, registerArgsSize]; omega)

/-- The moves of a result that is not widened and not left in memory for the guest. -/
theorem brings_dyExit (hr : RetPlaced r a x) (h : DyExitSeparate L env argSpace sret r a x)
    (hw : retWidening r = none) (hind : a.indirect = false) (x8 : ℕ) :
    ∃ mvs, dyExitMoves L env argSpace sret a x = some mvs ∧
      Brings (CpuState L env) (retSize r) (a.guestRetAddr L env x8)
        (dyHostRetAddr argSpace sret x8 a x) mvs := by
  have hz := L.zregs_ge
  have hL : L.size = L.zregs + 256 * 32 := rfl
  have hregs : registerArgsSize = 184 := rfl
  have hstate := h.regs
  cases hr with
  | void => exact ⟨[], rfl, by simp, by simp [retSize], by simp [retSize]⟩
  | word hs =>
    rename_i s p
    -- only a 32-bit integer is not widened
    have hp : p.1 = .eax ∧ p = (.eax, .full) ∧ s.size = 4 := by
      cases s <;> cases hw <;> cases hs <;> exact ⟨rfl, rfl, rfl⟩
    obtain ⟨-, rfl, h4⟩ := hp
    have h4 : retSize (some (.scalar s)) = 4 := h4
    refine ⟨[⟨env + 8 * 0, argSpace + 176, 8, none⟩], rfl, ?_, fun k hk => ?_, fun k hk => ?_⟩
    · intro mv hmv b hb
      obtain rfl := mem_singleton.mp hmv
      rw [Move.Covers, Move.slot_of_none rfl] at hb
      unfold CpuState
      simp only at hb
      omega
    · refine ⟨_, mem_singleton.mpr rfl, k, by simp only; omega, rfl, ?_, ?_,
        pairwise_singleton _ _⟩
      · rw [guestRetAddr_word (by omega)]
        rfl
      · rw [dyHostRetAddr_one (by omega)]
        rfl
    · rw [dyHostRetAddr_one (by omega), Nat.add_assoc]
      exact hstate _ (by simp only [x64Enum2Ptr]; omega)
  | general h8 =>
    rename_i t
    have hsize : retSize (some t) ≤ 8 * 1 := h8.le
    refine ⟨_, rfl, brings_general (n := 1) (f := fun j => ⟨env + 8 * j, argSpace + 176, 8, none⟩) x8
      (by norm_num) hsize (fun j => ⟨rfl, rfl, le_rfl, by norm_num⟩) (fun k hk => ?_) fun k hk => ?_⟩
    · rw [dyHostRetAddr_one (by omega), Nat.mod_eq_of_lt (by omega)]
      rfl
    · rw [dyHostRetAddr_one (by omega), Nat.add_assoc]
      exact hstate _ (by simp only [x64Enum2Ptr]; omega)
  | pair hnone h16 hxs =>
    rename_i t xs
    have hsize : retSize (some t) ≤ 8 * 2 := h16
    obtain ⟨p, q, rfl, hp, hq, hmoves⟩ : ∃ p q, xs = [p, q] ∧ x64Enum2Ptr p.1 + 8 ≤ 184 ∧
        x64Enum2Ptr q.1 + 8 ≤ 184 ∧
        dyExitMoves L env argSpace sret { loc := .regs (aaRegs .x 0 2) } { loc := .regs xs } =
          some ((range 2).map fun j => ⟨env + 8 * j,
            argSpace + x64Enum2Ptr (if j = 0 then p.1 else q.1),
            if (if j = 0 then p.1 else q.1).isXmm then 16 else 8, none⟩) := by
      rcases hxs with rfl | rfl | rfl | rfl <;> exact ⟨_, _, rfl, by decide, by decide, rfl⟩
    refine ⟨_, hmoves, brings_general x8 le_rfl hsize (fun j => ⟨rfl, rfl, ?_, ?_⟩) (fun k hk => ?_)
      fun k hk => ?_⟩
    · simp only
      split_ifs <;> norm_num
    · simp only
      split_ifs <;> norm_num
    · rw [dyHostRetAddr_two (by omega)]
      simp only [show k / 8 = 0 ↔ k < 8 by omega]
    · rw [dyHostRetAddr_two (by omega), Nat.add_assoc]
      apply hstate
      split_ifs <;> omega
  | float h4 =>
    refine ⟨_, rfl, ?_⟩
    have hsize : retSize (some _) = 4 * 1 := h4
    rw [hsize]
    exact brings_single h x8 (fun j => ⟨rfl, rfl⟩) (by norm_num) (by norm_num)
  | double h8 =>
    refine ⟨_, rfl, ?_⟩
    have hsize : retSize (some _) = 8 * 1 := h8
    rw [hsize]
    exact brings_single h x8 (fun j => ⟨rfl, rfl⟩) (by norm_num) le_rfl
  | doubles2 h16 =>
    rename_i t
    have hsize : retSize (some t) = 8 * 2 := h16
    have hmoves : dyExitMoves L env argSpace sret { loc := .regs (aaRegs .d 0 2) }
        { loc := .regs [(.xmm 0, .full), (.xmm 1, .full)] } = some ((range 2).map fun j =>
          ⟨env + (L.zregs + 256 * j), argSpace + (48 + 16 * j), 16, none⟩) := rfl
    rw [hsize]
    refine ⟨_, hmoves, brings_vectors x8 (fun j => ⟨rfl, rfl⟩) (by norm_num) (by norm_num)
      (fun j => ⟨rfl, rfl, by norm_num, le_rfl⟩) (fun k hk => ?_) fun k hk => ?_⟩
    · rw [dyHostRetAddr_two (by omega)]
      split_ifs <;> simp only [x64Enum2Ptr] <;> omega
    · rw [dyHostRetAddr_two (by omega), Nat.add_assoc]
      exact hstate _ (by split_ifs <;> simp only [x64Enum2Ptr] <;> omega)
  | floats2 h8 =>
    rename_i t
    have hsize : retSize (some t) = 4 * 2 := h8
    have hmoves : dyExitMoves L env argSpace sret { loc := .regs (aaRegs .s 0 2) }
        { loc := .regs [(.xmm 0, .full)] } = some ((range 2).map fun j =>
          ⟨env + (L.zregs + 256 * j), argSpace + (48 + 16 * (j / 2)) + 4 * (j % 2), 4, none⟩) := rfl
    rw [hsize]
    refine ⟨_, hmoves, brings_vectors x8 (fun j => ⟨rfl, rfl⟩) (by norm_num) (by norm_num)
      (fun j => ⟨rfl, rfl, by norm_num, by norm_num⟩) (fun k hk => ?_) fun k hk => ?_⟩
    · rw [dyHostRetAddr_one (by omega)]
      simp only [x64Enum2Ptr]
      omega
    · rw [dyHostRetAddr_one (by omega), Nat.add_assoc]
      exact hstate _ (by simp only [x64Enum2Ptr]; omega)
  | floats hn hsize =>
    rename_i t n
    have hsize : retSize (some t) = 4 * n := hsize
    have hmoves : dyExitMoves L env argSpace sret { loc := .regs (aaRegs .s 0 n) }
        { loc := .regs [(.xmm 0, .full), (.xmm 1, .full)] } = some ((range n).map fun j =>
          ⟨env + (L.zregs + 256 * j), argSpace + (48 + 16 * (j / 2)) + 4 * (j % 2), 4, none⟩) := by
      rcases hn with rfl | rfl <;> rfl
    rw [hsize]
    refine ⟨_, hmoves, brings_vectors x8 (fun j => ⟨rfl, rfl⟩) (by norm_num) (by omega)
      (fun j => ⟨rfl, rfl, by norm_num, by norm_num⟩) (fun k hk => ?_) fun k hk => ?_⟩
    · rw [dyHostRetAddr_two (by omega)]
      split_ifs <;> simp only [x64Enum2Ptr] <;> omega
    · rw [dyHostRetAddr_two (by omega), Nat.add_assoc]
      exact hstate _ (by split_ifs <;> simp only [x64Enum2Ptr] <;> omega)
  | doublesMem hn hsize =>
    rename_i t n
    have hsize : retSize (some t) = 8 * n := hsize
    have hmoves : dyExitMoves L env argSpace sret { loc := .regs (aaRegs .d 0 n) }
        { loc := .regs [(.rdi, .full)], indirect := true } = some ((range n).map fun j =>
          ⟨env + (L.zregs + 256 * j), sret + 8 * j, 8, none⟩) := by
      rcases hn with rfl | rfl <;> rfl
    have hbuf := h.sret rfl rfl
    rw [hsize] at hbuf ⊢
    refine ⟨_, hmoves, brings_vectors x8 (fun j => ⟨rfl, rfl⟩) (by norm_num) (by omega)
      (fun j => ⟨rfl, rfl, le_rfl, by norm_num⟩) (fun k hk => ?_) fun k hk => hbuf k hk⟩
    simp only [dyHostRetAddr, if_true, Bool.false_eq_true, if_false]
    omega
  | mem h16 => cases hind

theorem dyExit_widened (hr : RetPlaced r a x) {signed : Bool} {width : ℕ}
    (hw : retWidening r = some (signed, width)) (m : Mem) (x8 : ℕ) :
    ∃ mvs, dyExitMoves L env argSpace sret a x = some mvs ∧
      ∀ k < 4, runMoves mvs m
          (a.guestRetAddr L env ((runMoves mvs m).loadWord (env + 8 * 8) 8) k) =
        extendBytes signed width (fun i => m (dyHostRetAddr argSpace sret x8 a x i)) k := by
  obtain ⟨hsize, hwidth⟩ := retWidening_some hw
  cases hr with
  | word hs =>
    rename_i s p
    have hmoves : x64Enum2Ptr p.1 = 176 ∧
        dyExitMoves L env argSpace sret { loc := .regs (aaRegs .w 0 1) } { loc := .regs [p] } =
          some [⟨env + 8 * 0, argSpace + 176, 8, some (signed, width)⟩] := by
      cases s <;> cases hw <;> cases hs <;> exact ⟨rfl, rfl⟩
    refine ⟨_, hmoves.2, fun k hk => ?_⟩
    rw [guestRetAddr_word hk]
    change runMoves _ m (env + 8 * 0 + k) = _
    rw [runMoves, runMoves, Move.run_widened _ _ ?_ rfl hk]
    · refine extendBytes_congr signed width _ _ (by omega) (fun i hi => ?_) k
      rw [dyHostRetAddr_one (by omega), hmoves.1]
    · rintro _ _ ⟨⟩
      exact ⟨hwidth, by simp only; omega⟩
  | void => cases hw
  | pair hnone _ _ => rw [hw] at hnone; cases hnone
  | general h | float h | double h | doubles2 h | floats2 h | mem h =>
    simp only [retSize] at hsize
    omega
  | floats hn h | doublesMem hn h =>
    simp only [retSize] at hsize
    omega

theorem abiDyA2xExitTranslation_eq (aaInfo : ABIFnInfo AReg) (xxInfo : ABIFnInfo XReg)
    (hr : RetPlaced r aaInfo.rinfo xxInfo.rinfo) (m : Mem) :
    abiDyA2xExitTranslation L env argSpace sret aaInfo xxInfo m =
      (dyExitMoves L env argSpace sret aaInfo.rinfo xxInfo.rinfo).map fun mvs => runMoves mvs m := by
  have := hr.counts
  rw [abiDyA2xExitTranslation, if_neg]
  rintro ⟨-, h⟩
  omega

theorem dyExit_guestRetHolds (hr : RetPlaced r a x)
    (h : DyExitSeparate L env argSpace sret r a x) (m : Mem) :
    ∃ mvs, dyExitMoves L env argSpace sret a x = some mvs ∧
      GuestRetHolds L env (runMoves mvs m) r a fun k =>
        m (dyHostRetAddr argSpace sret (m.loadWord (env + 8 * 8) 8) a x k) := by
  unfold GuestRetHolds
  cases hw : retWidening r with
  | some w => exact dyExit_widened hr hw m _
  | none =>
    cases hind : a.indirect with
    | true =>
      -- the callee has written through `x8` already
      cases hr <;> cases hind
      refine ⟨[], rfl, fun k _ => ?_⟩
      simp only [dyHostRetAddr, guestRetAddr, if_true, runMoves]
    | false =>
      obtain ⟨mvs, hmoves, hbrings⟩ := brings_dyExit hr h hw hind (m.loadWord (env + 8 * 8) 8)
      refine ⟨mvs, hmoves, fun k hk => ?_⟩
      have haddr : ∀ x8 x8', a.guestRetAddr L env x8 k = a.guestRetAddr L env x8' k := by
        intro x8 x8'
        rw [guestRetAddr, guestRetAddr, hind]
        rfl
      rw [haddr _ (m.loadWord (env + 8 * 8) 8)]
      exact hbrings.inside m hk

end Result

/-- After a host call every result is where the guest expects it. `isCxxStructor` makes no
difference, the two descriptions being of one type. -/
theorem abiDyA2xExitTranslation_delivers (σ : Signature) (r : Option FlatType)
    (hret : σ.ret = ResultType.ofFlat r) :
    ∃ aaInfo xxInfo, σ.fnInfos = some (aaInfo, xxInfo) ∧
      ∀ (L : EnvLayout) (env argSpace sret : ℕ) (isCxxStructor : Bool) (m : Mem),
        DyExitSeparate L env argSpace sret r aaInfo.rinfo xxInfo.rinfo →
        ∃ m', abiDyA2xExitTranslation L env argSpace sret aaInfo { xxInfo with isCxxStructor } m =
            some m' ∧
          GuestRetHolds L env m' r aaInfo.rinfo fun k => m (dyHostRetAddr argSpace sret
            (m.loadWord (env + 8 * 8) 8) aaInfo.rinfo xxInfo.rinfo k) := by
  refine ⟨σ.aaInfo, σ.xxInfo, σ.fnInfos_eq, fun L env argSpace sret flag m hsep => ?_⟩
  have hr : RetPlaced r σ.aaInfo.rinfo σ.xxInfo.rinfo := by
    rw [Signature.aaInfo, Signature.xxInfo, hret]
    exact retPlaced_ofFlat r
  obtain ⟨mvs, hmoves, hholds⟩ := dyExit_guestRetHolds hr hsep m
  refine ⟨runMoves mvs m, ?_, hholds⟩
  rw [abiDyA2xExitTranslation_eq _ { σ.xxInfo with isCxxStructor := flag } hr, hmoves]
  rfl

/-- Four doubles: in the buffer for x86-64, in `d0` to `d3` for AArch64. -/
def rectSignature : Signature where
  ret := ResultType.ofFlat (some (.struct .double [.double, .double, .double]))
  args := []
  nfixed := 0
  nfixed_le := Nat.zero_le 0

theorem abiDyA2xExitTranslation_delivers_rect :
    ∃ m', abiDyA2xExitTranslation .least 0 65536 32768 rectSignature.aaInfo
        { rectSignature.xxInfo with isCxxStructor := false } (fun b => UInt8.ofNat b) = some m' ∧
      GuestRetHolds .least 0 m' (some (.struct .double [.double, .double, .double]))
        rectSignature.aaInfo.rinfo fun k => UInt8.ofNat (32768 + k) := by
  obtain ⟨aa, xx, hinfos, h⟩ := abiDyA2xExitTranslation_delivers rectSignature
    (some (.struct .double [.double, .double, .double])) rfl
  obtain ⟨rfl, rfl⟩ := Prod.mk.inj (Option.some.inj (rectSignature.fnInfos_eq.symm.trans hinfos))
  refine h .least 0 65536 32768 false (fun b => UInt8.ofNat b) ⟨fun o _ => ?_, fun _ _ o _ => ?_⟩
  · have : EnvLayout.least.size ≤ 65536 := by decide
    omega
  · have : EnvLayout.least.size ≤ 32768 := by decide
    omega

end Iqemu64
