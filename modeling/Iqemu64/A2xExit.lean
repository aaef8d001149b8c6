import Iqemu64.A2xEntry
import Iqemu64.DyExit

/-!
# Emitted result translation, host to guest

`abiA2xExitTranslation` is the code that `abi_a2x_exit_translation` emits after the call of the host
function. `rbx` (`TCG_AREG0`) holds the CPU state. It gives the stack arguments back, brings the result
to the CPU state, from registers or from the space that the entry reserved for it, and gives that space
back. An assertion that does not hold is `none`.
-/

namespace Iqemu64
open ByteMemory X64

def tcgExtendRetInRcxByRegLocInfo (x : XReg) (info : LocInfo) : Option BridgeCode :=
  (extendRetByRegLocInfo x info).map fun widening =>
    match widening with
    | some (signed, width) => [.movx signed (8 * width) .rcx]
    | none => []

section Code
variable (L : EnvLayout)

def a2xExitPiece (q : (XReg × LocInfo) × ℕ) : Option BridgeCode :=
  match x64Enum2Reg q.1.1 with
  | .inr n => some [.movapsSt n .rbx q.2]
  | .inl r => (tcgExtendRetInRcxByRegLocInfo q.1.1 q.1.2).map fun extend =>
      .mov .rcx r :: (extend ++ [.st .rcx .rbx q.2])

def a2xExitOneByOne (xs : List (XReg × LocInfo)) (aa : ABIArgInfo AReg) : Option BridgeCode :=
  ((regPairs L xs aa).mapM a2xExitPiece).map List.flatten

def a2xExitHalves (n : ℕ) (a₀ : AReg) (a₁ : Option AReg) : BridgeCode :=
  [.movq .r8 n, .st32 .r8 .rbx (a64Enum2Offset L (some a₀))] ++
    match a₁ with
    | some a => [.shr32 .r8 32, .st32 .r8 .rbx (a64Enum2Offset L (some a))]
    | none => []

def a2xExitSplit (xs : List XReg) (as : List AReg) : Option BridgeCode :=
  let among (first last : ℕ) (a : AReg) := (AReg.s first).code ≤ a.code ∧ a.code ≤ (AReg.s last).code
  match xs, as with
  | [.xmm n], [a₀, a₁] =>
    if among 0 6 a₀ ∧ a₀.code + 1 = a₁.code then some (a2xExitHalves L n a₀ a₁) else none
  | [.xmm n, x], [a₀, a₁, a₂] =>
    if (XReg.xmm n).code + 1 = x.code ∧ among 0 5 a₀ ∧ a₀.code + 1 = a₁.code ∧
        a₁.code + 1 = a₂.code then
      some (a2xExitHalves L n a₀ a₁ ++ a2xExitHalves L (n + 1) a₂ none)
    else none
  | [.xmm n, x], [a₀, a₁, a₂, a₃] =>
    if (XReg.xmm n).code + 1 = x.code ∧ among 0 4 a₀ ∧ a₀.code + 1 = a₁.code ∧
        a₁.code + 1 = a₂.code ∧ a₂.code + 1 = a₃.code then
      some (a2xExitHalves L n a₀ a₁ ++ a2xExitHalves L (n + 1) a₂ a₃)
    else none
  | _, _ => none

def a2xExitFromMem (as : List AReg) : Option BridgeCode :=
  if as.IsChain fun a b => a.code + 1 = b.code then
    match as.head? with
    | some (.d 0) => some (as.zipIdx.flatMap fun (a, j) =>
        [.ld .r8 .rsp (8 * j), .st .r8 .rbx (a64Enum2Offset L (some a))])
    | some (.q 0) => some (as.zipIdx.flatMap fun (a, j) =>
        [.movapsLd 8 .rsp (16 * j), .movapsSt 8 .rbx (a64Enum2Offset L (some a))])
    | _ => none
  else none

def a2xExitResult (aa : ABIArgInfo AReg) (xx : ABIArgInfo XReg) : Option BridgeCode :=
  match xx.indirect, aa.indirect, xx.loc with
  | false, false, .regs xs =>
    if xx.teNumOfReg = aa.teNumOfReg then a2xExitOneByOne L xs aa
    else if xx.teNumOfReg < aa.teNumOfReg then a2xExitSplit L xx.regs aa.regs
    else none
  | false, false, .mem _ _ => none
  | true, false, _ => (a2xExitFromMem L aa.regs).map fun code => code ++ [.addi .rsp bigEnoughSretSize]
  -- a direct result on one side only: a message is printed; in memory on both: done by the entry
  | _, true, _ => some []

end Code

def a2xExitFinish (xx : ABIArgInfo XReg) : BridgeCode :=
  (if xx.callback then
    [.mov .rdi .rax, .movSym .rsi (.fakeName none), .call .tcgRegisterCallbackAsType] else []) ++
  (if xx.block then [.mov .rdi .rax, .call .tcgCopyReplaceBlocks, .st .rax .rbx 0] else []) ++
  if xx.stfp then
    [.mov .rdi .rax, .movSym .rsi .str, .movi .rdx (2 ^ 64 - 1), .movSym .rcx (.stfpOffsetList none),
      .call .tcgRegisterStructWithFnPtr]
  else []

/-- The early returns of both exits: a constructor or destructor that returns its object on one side
only. -/
def returnsThisOnce (aaInfo : ABIFnInfo AReg) (xxInfo : ABIFnInfo XReg) : Prop :=
  xxInfo.isCxxStructor = true ∧ (xxInfo.rinfo.teNumOfReg = 0 ∧ aaInfo.rinfo.teNumOfReg = 1 ∨
    xxInfo.rinfo.teNumOfReg = 1 ∧ aaInfo.rinfo.teNumOfReg = 0)

instance (aaInfo : ABIFnInfo AReg) (xxInfo : ABIFnInfo XReg) :
    Decidable (returnsThisOnce aaInfo xxInfo) :=
  inferInstanceAs (Decidable (_ ∧ _))

/-- `abi_a2x_exit_translation`. -/
def abiA2xExitTranslation (L : EnvLayout) (aaInfo : ABIFnInfo AReg) (xxInfo : ABIFnInfo XReg) :
    Option BridgeCode :=
  if returnsThisOnce aaInfo xxInfo then some []
  else (a2xExitResult L aaInfo.rinfo xxInfo.rinfo).map fun result =>
    .addi .rsp (ffiAlign xxInfo.bytes 16) :: (result ++ a2xExitFinish xxInfo.rinfo)

end Iqemu64
