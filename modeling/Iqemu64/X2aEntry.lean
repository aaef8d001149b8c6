import Iqemu64.Bridge

/-!
# Emitted argument translation, host to guest

`abiX2aEntryTranslation` is the code that `abi_x2a_entry_translation` emits between a host call and
the guest function. `rdi` holds the CPU state and `rsi` the registers of the host caller, saved in
memory. While the arguments are mapped, `r10` is the lowered guest stack pointer and `r11` the host's
stack arguments. An assertion that does not hold is `none`.
-/

namespace Iqemu64
open ByteMemory X64

/-- `x64_enum_2_offset`: offset in the saved registers. -/
def x64Enum2Offset : XReg → ℕ
  | .rax | .eax | .ax | .al => 0
  | .rdi | .edi => 32
  | .rsi | .esi => 40
  | .rdx | .edx | .dl => 24
  | .rcx | .ecx => 16
  | .r8 | .r8d => 64
  | .r9 | .r9d => 72
  | .xmm n => 128 + 16 * n

def ctxRspOffset : ℕ := 56

section Code
variable (L : EnvLayout)

def x2aBlock (xx : ABIArgInfo XReg) : BridgeCode :=
  let reg := (xx.teGetReg 0).elim 0 x64Enum2Offset
  let load : BridgeCode :=
    if xx.teIsMem then [.ld .r10 .rsi ctxRspOffset, .ld .rdi .r10 (xx.teGetMem + 8)]
    else [.ld .r10 .rsi reg, .mov .rdi .r10]
  let store : BridgeCode :=
    if xx.teIsMem then [.ld .r10 .rsi ctxRspOffset, .st .rax .r10 (xx.teGetMem + 8)]
    else [.st .rax .rsi reg]
  .push .rdi :: .push .rsi :: (load ++ .addi .rsp (-8) :: .call .tcgCopyReplaceBlocks ::
    .addi .rsp 8 :: .pop .rsi :: .pop .rdi :: store)

def x2aRet (aa : ABIArgInfo AReg) (xx : ABIArgInfo XReg) : Option BridgeCode :=
  match xx.indirect, aa.indirect with
  | true, true => (xx.teGetReg 0).map fun x => [.ld .rax .rsi (x64Enum2Offset x), .st .rax .rdi (8 * 8)]
  | _, _ => some []

def x2aStack (bytes : ℕ) : BridgeCode :=
  [.ld .rax .rdi spOffset, .addi .rax (-ffiAlign bytes 16), .st .rax .rdi spOffset, .mov .r10 .rax,
    .ld .r11 .rsi ctxRspOffset, .addi .r11 8]

def x2aPiece (base : Gpr) (q : (XReg × LocInfo) × ℕ) : BridgeCode :=
  if q.1.1.isXmm then [.movapsLd 0 .rsi (x64Enum2Offset q.1.1), .movapsSt 0 base q.2]
  else [.ld .rax .rsi (x64Enum2Offset q.1.1), .st .rax base q.2]

def x2aSplit (x : XReg) (lower upper : ℕ) : BridgeCode :=
  [.ld .rax .rsi (x64Enum2Offset x), .st .rax .rdi lower, .shr32 .rax 32, .st .rax .rdi upper]

def x2aConcat (xs : List XReg) (aa : ABIArgInfo AReg) : Option BridgeCode :=
  let code j := (aa.teGetReg j).elim 0 AReg.code
  let offset j := a64Enum2Offset L (aa.teGetReg j)
  match xs with
  | [x] =>
    if x.isXmm = true ∧ aa.teNumOfReg = 2 ∧ code 0 + 1 = code 1 then
      some (x2aSplit x (offset 0) (offset 1))
    else none
  | [x, x'] =>
    if x.isXmm = true ∧ x.code + 1 = x'.code ∧ code 0 + 1 = code 1 ∧ code 1 + 1 = code 2 then
      if aa.teNumOfReg = 3 then
        some (x2aSplit x (offset 0) (offset 1) ++
          [.ld .rax .rsi (x64Enum2Offset x'), .st .rax .rdi (offset 2)])
      else if aa.teNumOfReg = 4 ∧ code 2 + 1 = code 3 then
        some (x2aSplit x (offset 0) (offset 1) ++ x2aSplit x' (offset 2) (offset 3))
      else none
    else none
  | _ => none

def x2aRegsFromMem (offset size : ℕ) (as : List AReg) : BridgeCode :=
  as.zipIdx.flatMap fun (a, j) =>
    if as.length * 16 = size then
      [.movapsLd 0 .r11 (offset + 16 * j), .movapsSt 0 .rdi (a64Enum2Offset L (some a))]
    else [.ld .rax .r11 (offset + 8 * j), .st .rax .rdi (a64Enum2Offset L (some a))]

def x2aCopy (size offset aaOffset : ℕ) : BridgeCode :=
  [.mov .r8 .rdi, .mov .r9 .rsi, .movi .rcx size, .mov .rsi .r11, .addi .rsi offset, .mov .rdi .r10,
    .addi .rdi aaOffset, .repMovsb, .mov .rsi .r9, .mov .rdi .r8]

def x2aArg (aa : ABIArgInfo AReg) (xx : ABIArgInfo XReg) : Option BridgeCode :=
  if (!xx.teIsMem && xx.teNumOfReg == 0) || (!aa.teIsMem && aa.teNumOfReg == 0) then some []
  else if xx.indirect then none
  else
    match xx.loc, aa.indirect, aa.loc with
    | .regs xs, false, .regs _ =>
      if xx.teNumOfReg = aa.teNumOfReg then some ((regPairs L xs aa).flatMap (x2aPiece .rdi))
      else if xx.teNumOfReg < aa.teNumOfReg then x2aConcat L xx.regs aa
      else none
    | .regs xs, false, .mem offset _ =>
      some ((regOffsets aa.size xs.length xs offset).flatMap (x2aPiece .r10))
    | .regs _, true, _ => none
    | .mem offset _, false, .regs _ => some (x2aRegsFromMem L offset xx.size aa.regs)
    | .mem offset _, false, .mem aaOffset _ =>
      if xx.size = aa.size then some (x2aCopy xx.size offset aaOffset) else none
    | .mem offset _, true, .regs _ =>
      some [.mov .rax .r11, .addi .rax offset, .st .rax .rdi (a64Enum2Offset L (aa.teGetReg 0))]
    | .mem offset _, true, .mem aaOffset _ =>
      some [.mov .rax .r11, .addi .rax offset, .st .rax .r10 aaOffset]

def x2aArgs : List (ABIArgInfo AReg) → List (ABIArgInfo XReg) → Option BridgeCode
  | _, [] => some []
  | aa :: aas, xx :: xxs => (x2aArg L aa xx).bind fun code => (x2aArgs aas xxs).map (code ++ ·)
  | [], _ :: _ => none

/-- `abi_x2a_entry_translation`. -/
def abiX2aEntryTranslation (aaInfo : ABIFnInfo AReg) (xxInfo : ABIFnInfo XReg) : Option BridgeCode :=
  (x2aRet aaInfo.rinfo xxInfo.rinfo).bind fun ret =>
    (x2aArgs L aaInfo.ainfo xxInfo.ainfo).map fun args =>
      xxInfo.ainfo.flatMap (fun xx => if xx.block then x2aBlock xx else []) ++ ret ++
        x2aStack aaInfo.bytes ++ args

end Code

def x2aHostView (ctx stack : ℕ) (m : Mem) : HostView where
  reg r k := m (ctx + x64Enum2Offset r + k)
  stack o := m (stack + o)

end Iqemu64
