import Iqemu64.Returns
import Iqemu64.X2aEntry
import Iqemu64.Transfer

/-!
# Emitted result translation, guest to host

`abiX2aExitTranslation` is the code that `abi_x2a_exit_translation` emits between the return of a guest
function and the return to its host caller. `rdi` holds the CPU state and `rsi` the saved registers of
the caller. It brings the result there and raises the guest stack pointer. An assertion that does not
hold is `none`.
-/

namespace Iqemu64
open ByteMemory X64

section Code
variable (L : EnvLayout)

def x2aExitOneByOne (xs : List (XReg × LocInfo)) (aa : ABIArgInfo AReg) : List Transfer :=
  (regPairs L xs aa).map fun (p, offset) =>
    ⟨if p.1.isXmm then .wide else .word, .rdi, offset, .rsi, x64Enum2Offset p.1⟩

def x2aExitConcat (xs : List XReg) (as : List AReg) : Option (List Transfer) :=
  let half (a : AReg) (x : XReg) (upper : ℕ) : Transfer :=
    ⟨.half, .rdi, a64Enum2Offset L (some a), .rsi, x64Enum2Offset x + upper⟩
  let among (first last : ℕ) (a : AReg) := (AReg.s first).code ≤ a.code ∧ a.code ≤ (AReg.s last).code
  match xs, as with
  | [x], [a₀, a₁] =>
    if x.isXmm = true ∧ among 0 6 a₀ ∧ a₀.code + 1 = a₁.code then some [half a₀ x 0, half a₁ x 4]
    else none
  | [x₀, x₁], [a₀, a₁, a₂] =>
    if x₀.isXmm = true ∧ x₀.code + 1 = x₁.code ∧ among 0 5 a₀ ∧ a₀.code + 1 = a₁.code ∧
        a₁.code + 1 = a₂.code then
      some [half a₀ x₀ 0, half a₁ x₀ 4, half a₂ x₁ 0]
    else none
  | [x₀, x₁], [a₀, a₁, a₂, a₃] =>
    if x₀.isXmm = true ∧ x₀.code + 1 = x₁.code ∧ among 0 4 a₀ ∧ a₀.code + 1 = a₁.code ∧
        a₁.code + 1 = a₂.code ∧ a₂.code + 1 = a₃.code then
      some [half a₀ x₀ 0, half a₁ x₀ 4, half a₂ x₁ 0, half a₃ x₁ 4]
    else none
  | _, _ => none

def x2aExitToMem (as : List AReg) : Option (List Transfer) :=
  let words (width : Width) : List Transfer := as.zipIdx.map fun (a, j) =>
    ⟨width, .rdi, a64Enum2Offset L (some a), .r8, width.bytes * j⟩
  if as.IsChain fun a b => a.code + 1 = b.code then
    match as.head? with
    | some (.d 0) => some (words .word)
    | some (.q 0) => some (words .wide)
    | _ => none
  else none

def x2aExitResult (aa : ABIArgInfo AReg) (xx : ABIArgInfo XReg) : Option BridgeCode :=
  match xx.indirect, aa.indirect, xx.loc with
  | false, false, .regs xs =>
    if xx.teNumOfReg = aa.teNumOfReg then some ((x2aExitOneByOne L xs aa).flatMap Transfer.code)
    else if xx.teNumOfReg < aa.teNumOfReg then
      (x2aExitConcat L xx.regs aa.regs).map fun ts => ts.flatMap Transfer.code
    else none
  | false, false, .mem _ _ => none
  | true, false, _ =>
    (x2aExitToMem L aa.regs).map fun ts =>
      .ld .r8 .rsi ((xx.teGetReg 0).elim 0 x64Enum2Offset) :: ts.flatMap Transfer.code
  -- a direct result on one side only: a message is printed; in memory on both: done by the entry
  | _, true, _ => some []

def x2aExitStack (bytes : ℕ) : BridgeCode :=
  [.ld .rax .rdi spOffset, .addi .rax (ffiAlign bytes 16), .st .rax .rdi spOffset]

def x2aExitBlock : BridgeCode :=
  [.push .rdi, .push .rsi, .ld .rdi .rdi 0, .addi .rsp (-8), .call .tcgCopyReplaceBlocks,
    .addi .rsp 8, .st .rax .rsi (x64Enum2Offset .rax), .pop .rsi, .pop .rdi]

/-- `abi_x2a_exit_translation`. -/
def abiX2aExitTranslation (aaInfo : ABIFnInfo AReg) (xxInfo : ABIFnInfo XReg) : Option BridgeCode :=
  let xxRegCnt := xxInfo.rinfo.teNumOfReg
  let aaRegCnt := aaInfo.rinfo.teNumOfReg
  if xxInfo.isCxxStructor = true ∧ xxRegCnt = 0 ∧ aaRegCnt = 1 then some []
  else if xxInfo.isCxxStructor = true ∧ xxRegCnt = 1 ∧ aaRegCnt = 0 then
    some [.ld .rax .rsi (x64Enum2Offset .rdi), .st .rax .rsi (x64Enum2Offset .rax)]
  else (x2aExitResult L aaInfo.rinfo xxInfo.rinfo).map fun result =>
    result ++ x2aExitStack aaInfo.bytes ++ if xxInfo.rinfo.block then x2aExitBlock else []

end Code

end Iqemu64
