import Iqemu64.A2xExit
import Iqemu64.X64Frame

/-!
# The host stack across a bridged call

The code before and after a host call moves the stack pointer by amounts that depend only on the two
descriptions of the function. They cancel, except for a constructor or destructor that returns its
object on one side only: there the exit returns before it gives anything back.
-/

namespace Iqemu64
open ByteMemory X64 Option

/-- Space that the entry reserves for a result that the host returns in memory and the guest in
registers. -/
def a2xSretSpace (aaInfo : ABIFnInfo AReg) (xxInfo : ABIFnInfo XReg) : ℕ :=
  if xxInfo.rinfo.indirect ∧ ¬ aaInfo.rinfo.indirect then bigEnoughSretSize else 0

theorem x64Enum2Reg_ne_rsp {x : XReg} {r : Gpr} (h : x64Enum2Reg x = .inl r) : r ≠ .rsp := by
  rintro rfl
  cases x <;> cases h

section Entry
variable {L : EnvLayout}

theorem rspShift_extendArg (info : LocInfo) : rspShift (tcgExtendArgInRaxByLocInfo info) = some 0 := by
  cases info <;> rfl

theorem rspShift_a2xPrepare (i : ℕ) (aa : ABIArgInfo AReg) : rspShift (a2xPrepare L i aa) = some 0 := by
  have hload : rspShift (a2xLoadArg L aa) = some 0 := by
    unfold a2xLoadArg
    split <;> rfl
  have hcallback : rspShift (a2xCallback L i aa) = some 0 := by
    unfold a2xCallback
    split <;> rfl
  have hblock : rspShift (a2xBlock L aa) = some 0 := by
    refine rspShift_append_zero hload (rspShift_cons_zero rfl ?_)
    split <;> rfl
  have hstfp : rspShift (a2xStfp L i aa) = some 0 := rspShift_append_zero hload rfl
  refine rspShift_append_zero (rspShift_append_zero ?_ ?_) ?_ <;> split <;> first | assumption | rfl

variable {aa : ABIArgInfo AReg} {code : BridgeCode}

theorem rspShift_a2xRet {xx : ABIArgInfo XReg}
    (h : a2xRet aa xx = some code) :
    rspShift code = some (if xx.indirect ∧ ¬ aa.indirect then -(bigEnoughSretSize : ℤ) else 0) := by
  unfold a2xRet at h
  cases hx : xx.indirect <;> cases ha : aa.indirect <;>
    simp only [hx, ha, map_eq_some_iff, Option.some.injEq] at h
  case true.false =>
    obtain ⟨x, -, rfl⟩ := h
    cases x <;> rfl
  case true.true =>
    obtain ⟨x, -, rfl⟩ := h
    cases x <;> rfl
  all_goals
    cases h
    rfl

theorem rspShift_a2xPiece (base : Gpr) (q : (XReg × LocInfo) × ℕ) :
    rspShift (a2xPiece base q) = some 0 := by
  unfold a2xPiece
  split
  · rfl
  · rename_i r hr
    have hmov : rspShift ([.mov r .rax] : BridgeCode) = some 0 := by
      simp [Insn.rspShift, x64Enum2Reg_ne_rsp hr]
    exact rspShift_cons_zero rfl (rspShift_append_zero (rspShift_extendArg q.1.2) hmov)

theorem rspShift_a2xConcat {xs : List XReg}
    (h : a2xConcat L xs aa = some code) : rspShift code = some 0 := by
  unfold a2xConcat at h
  split at h
  · simp only [ite_none_right_eq_some, Option.some.injEq] at h
    rw [← h.2]
    rfl
  · simp only [ite_none_right_eq_some, Option.some.injEq] at h
    rw [← h.2]
    rfl
  · cases h

theorem rspShift_a2xMemFromRegs (offset size : ℕ) (info : LocInfo) (as : List AReg) :
    rspShift (a2xMemFromRegs L offset size info as) = some 0 := by
  refine rspShift_flatMap fun ⟨a, j⟩ _ => ?_
  simp only
  split
  · rfl
  · exact rspShift_cons_zero rfl (rspShift_append_zero (rspShift_extendArg info) rfl)

theorem rspShift_a2xCopy {setup : BridgeCode} (h : rspShift setup = some 0) (size offset : ℕ) :
    rspShift (a2xCopy setup size offset) = some 0 := by
  have hsave : rspShift ([.push .rdi, .push .rsi, .push .rcx, .movi .rcx size] : BridgeCode) =
      some (-24) := rfl
  have hrestore : rspShift ([.mov .rdi .rsp, .addi .rdi (offset + 8 * 3), .repMovsb, .pop .rcx,
      .pop .rsi, .pop .rdi] : BridgeCode) = some 24 := rfl
  exact rspShift_append (rspShift_append hsave h) hrestore

theorem rspShift_a2xArg {xx : ABIArgInfo XReg}
    (h : a2xArg L aa xx = some code) : rspShift code = some 0 := by
  unfold a2xArg at h
  split at h
  · cases h
    rfl
  · split at h
    · cases h
    · split at h
      case h_1 =>
        split_ifs at h
        · cases h
          exact rspShift_flatMap fun q _ => rspShift_a2xPiece _ q
        · exact rspShift_a2xConcat h
      case h_2 =>
        cases h
        exact rspShift_cons_zero rfl (rspShift_flatMap fun q _ => rspShift_a2xPiece _ q)
      case h_3 => cases h
      case h_4 =>
        cases h
        exact rspShift_a2xMemFromRegs _ _ _ _
      case h_5 info _ _ _ _ _ =>
        simp only [ite_none_right_eq_some, Option.some.injEq] at h
        rw [← h.2]
        refine rspShift_append_zero (rspShift_a2xCopy rfl _ _) ?_
        split
        · exact rspShift_cons_zero rfl (rspShift_append_zero (rspShift_extendArg _) rfl)
        · rfl
      case h_6 | h_7 =>
        simp only [ite_none_right_eq_some, Option.some.injEq] at h
        rw [← h.2]
        exact rspShift_a2xCopy rfl _ _

theorem rspShift_a2xArgs {aas : List (ABIArgInfo AReg)} {xxs : List (ABIArgInfo XReg)} (h : a2xArgs L aas xxs = some code) : rspShift code = some 0 := by
  induction xxs generalizing aas code with
  | nil =>
    obtain rfl : [] = code := by cases aas <;> exact Option.some.inj h
    rfl
  | cons xx xxs ih =>
    cases aas with
    | nil => cases h
    | cons aa aas =>
      simp only [a2xArgs, bind_eq_some_iff, map_eq_some_iff] at h
      obtain ⟨c, hc, rest, hrest, rfl⟩ := h
      exact rspShift_append_zero (rspShift_a2xArg hc) (ih hrest)

theorem rspShift_a2xEntry {aaInfo : ABIFnInfo AReg} {xxInfo : ABIFnInfo XReg}
    (h : abiA2xEntryTranslation L aaInfo xxInfo = some code) :
    rspShift code = some (-((a2xSretSpace aaInfo xxInfo + ffiAlign xxInfo.bytes 16 : ℕ) : ℤ)) := by
  simp only [abiA2xEntryTranslation, bind_eq_some_iff, map_eq_some_iff] at h
  obtain ⟨ret, hret, args, hargs, rfl⟩ := h
  have hprep : rspShift ((aaInfo.ainfo.take xxInfo.ainfo.length).zipIdx.flatMap
      fun p => a2xPrepare L p.2 p.1) = some 0 :=
    rspShift_flatMap fun p _ => rspShift_a2xPrepare p.2 p.1
  have hend : rspShift (args ++ [.movi .rax xxInfo.ssecount]) = some 0 :=
    rspShift_append_zero (rspShift_a2xArgs hargs) rfl
  have hroom : rspShift (.addi .rsp (-(ffiAlign xxInfo.bytes 16 : ℤ)) :: (args ++
      [.movi .rax xxInfo.ssecount])) = some (-(ffiAlign xxInfo.bytes 16 : ℤ)) := by
    simp [hend, Insn.rspShift]
  refine (rspShift_append (rspShift_append hprep (rspShift_a2xRet hret)) hroom).trans ?_
  unfold a2xSretSpace
  split_ifs <;> simp [add_comm]

end Entry

section Exit
variable {L : EnvLayout}

variable {code : BridgeCode}

theorem rspShift_a2xExitPiece {q : (XReg × LocInfo) × ℕ}
    (h : a2xExitPiece q = some code) : rspShift code = some 0 := by
  unfold a2xExitPiece at h
  split at h
  · cases h
    rfl
  · simp only [tcgExtendRetInRcxByRegLocInfo, map_eq_some_iff] at h
    obtain ⟨_, ⟨w, -, rfl⟩, rfl⟩ := h
    split <;> rfl

theorem rspShift_a2xExitOneByOne {xs : List (XReg × LocInfo)} {aa : ABIArgInfo AReg} (h : a2xExitOneByOne L xs aa = some code) : rspShift code = some 0 := by
  obtain ⟨cs, hcs, rfl⟩ := map_eq_some_iff.mp h
  exact rspShift_mapM hcs fun q c hq => rspShift_a2xExitPiece hq

theorem rspShift_a2xExitHalves (n : ℕ) (a₀ : AReg) (a₁ : Option AReg) :
    rspShift (a2xExitHalves L n a₀ a₁) = some 0 := by
  cases a₁ <;> rfl

theorem rspShift_a2xExitSplit {xs : List XReg} {as : List AReg}
    (h : a2xExitSplit L xs as = some code) : rspShift code = some 0 := by
  simp only [a2xExitSplit] at h
  split at h
  · simp only [ite_none_right_eq_some, Option.some.injEq] at h
    rw [← h.2]
    exact rspShift_a2xExitHalves _ _ _
  · simp only [ite_none_right_eq_some, Option.some.injEq] at h
    rw [← h.2]
    exact rspShift_append_zero (rspShift_a2xExitHalves _ _ _) (rspShift_a2xExitHalves _ _ _)
  · simp only [ite_none_right_eq_some, Option.some.injEq] at h
    rw [← h.2]
    exact rspShift_append_zero (rspShift_a2xExitHalves _ _ _) (rspShift_a2xExitHalves _ _ _)
  · cases h

theorem rspShift_a2xExitFromMem {as : List AReg}
    (h : a2xExitFromMem L as = some code) : rspShift code = some 0 := by
  unfold a2xExitFromMem at h
  split_ifs at h
  split at h
  · cases h
    exact rspShift_flatMap fun _ _ => rfl
  · cases h
    exact rspShift_flatMap fun _ _ => rfl
  · cases h

theorem rspShift_a2xExitResult {aa : ABIArgInfo AReg} {xx : ABIArgInfo XReg}
    (h : a2xExitResult L aa xx = some code) :
    rspShift code = some (if xx.indirect ∧ ¬ aa.indirect then bigEnoughSretSize else 0) := by
  unfold a2xExitResult at h
  split at h
  case h_1 hx ha _ =>
    rw [hx]
    split_ifs at h
    · exact rspShift_a2xExitOneByOne h
    · exact rspShift_a2xExitSplit h
  case h_2 => cases h
  case h_3 hx ha =>
    rw [hx, ha]
    obtain ⟨c, hc, rfl⟩ := map_eq_some_iff.mp h
    have hspace : rspShift ([.addi .rsp bigEnoughSretSize] : BridgeCode) =
        some (bigEnoughSretSize : ℤ) := rfl
    simpa using rspShift_append (rspShift_a2xExitFromMem hc) hspace
  case h_4 ha =>
    cases h
    simp [ha]

theorem rspShift_a2xExitFinish (xx : ABIArgInfo XReg) : rspShift (a2xExitFinish xx) = some 0 := by
  refine rspShift_append_zero (rspShift_append_zero ?_ ?_) ?_ <;> split <;> rfl

theorem rspShift_a2xExit {aaInfo : ABIFnInfo AReg} {xxInfo : ABIFnInfo XReg}
    (h : abiA2xExitTranslation L aaInfo xxInfo = some code) : rspShift code =
      some (if returnsThisOnce aaInfo xxInfo then 0
        else (a2xSretSpace aaInfo xxInfo + ffiAlign xxInfo.bytes 16 : ℕ)) := by
  unfold abiA2xExitTranslation at h
  split_ifs at h ⊢
  · cases h
    rfl
  · obtain ⟨result, hresult, rfl⟩ := map_eq_some_iff.mp h
    have hrest := rspShift_append (rspShift_a2xExitResult hresult)
      (rspShift_a2xExitFinish xxInfo.rinfo)
    simp only [rspShift_cons, Insn.rspShift, if_true, hrest, bind_some, map_some,
      a2xSretSpace]
    split_ifs <;> simp [add_comm]

end Exit

/-- A call leaves the host stack pointer where it was, up to what an early return of the exit does not
give back. -/
theorem a2x_rsp {L : EnvLayout} {E : BridgeExternals} {aaInfo : ABIFnInfo AReg} {xxInfo : ABIFnInfo XReg}
    (hE : ∀ f s, (E.ext f s).gpr .rsp = s.gpr .rsp) {entry exit : BridgeCode}
    (hentry : abiA2xEntryTranslation L aaInfo xxInfo = some entry)
    (hexit : abiA2xExitTranslation L aaInfo xxInfo = some exit) {s s₁ s₂ t : State}
    (hrun₁ : run E entry s = some s₁) (hcallee : s₂.gpr .rsp = s₁.gpr .rsp)
    (hrun₂ : run E exit s₂ = some t) :
    t.gpr .rsp = s.gpr .rsp - BitVec.ofNat 64 (if returnsThisOnce aaInfo xxInfo then
      a2xSretSpace aaInfo xxInfo + ffiAlign xxInfo.bytes 16 else 0) := by
  rw [run_rsp hE (rspShift_a2xExit hexit) hrun₂, hcallee, run_rsp hE (rspShift_a2xEntry hentry) hrun₁]
  generalize a2xSretSpace aaInfo xxInfo + ffiAlign xxInfo.bytes 16 = n
  rw [BitVec.add_assoc, ← BitVec.ofInt_add, BitVec.sub_eq_add_neg, ← BitVec.ofInt_natCast,
    ← BitVec.ofInt_neg]
  split_ifs <;> simp

end Iqemu64
