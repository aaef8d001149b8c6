import Iqemu64.Bridge

/-!
# Emitted argument translation, guest to host

`abiA2xEntryTranslation` is the code that `abi_a2x_entry_translation` emits between a guest call and
the host function. `rbx` (`TCG_AREG0`) holds the CPU state. An assertion that does not hold is `none`.
-/

namespace Iqemu64
open ByteMemory X64

def bigEnoughSretSize : ℕ := 64

section Code
variable (L : EnvLayout)

def a2xLoadArg (aa : ABIArgInfo AReg) : BridgeCode :=
  if aa.teIsMem then [.ld .r11 .rbx spOffset, .ld .rdi .r11 aa.teGetMem]
  else [.ld .rdi .rbx (a64Enum2Offset L (aa.teGetReg 0))]

def a2xCallback (i : ℕ) (aa : ABIArgInfo AReg) : BridgeCode :=
  if aa.teIsMem then
    [.ld .r11 .rbx spOffset, .push .r11, .addi .rsp (-8), .ld .rdi .r11 aa.teGetMem,
      .movSym .rsi (.fakeName (some i)), .call .callbackQueryAndAddTrampoline, .addi .rsp 8,
      .pop .r11, .st .rax .r11 aa.teGetMem]
  else
    [.ld .rdi .rbx (a64Enum2Offset L (aa.teGetReg 0)), .movSym .rsi (.fakeName (some i)),
      .call .callbackQueryAndAddTrampoline, .st .rax .rbx (a64Enum2Offset L (aa.teGetReg 0))]

def a2xBlock (aa : ABIArgInfo AReg) : BridgeCode :=
  let store : BridgeCode :=
    if aa.teIsMem then [.ld .r11 .rbx spOffset, .st .rax .r11 aa.teGetMem]
    else [.st .rax .rbx (a64Enum2Offset L (aa.teGetReg 0))]
  a2xLoadArg L aa ++ .call .tcgCopyReplaceBlocks :: store

def a2xStfp (i : ℕ) (aa : ABIArgInfo AReg) : BridgeCode :=
  a2xLoadArg L aa ++ [.movSym .rsi .str, .movi .rdx i, .movSym .rcx (.stfpOffsetList (some i)),
    .call .tcgRegisterStructWithFnPtr]

def a2xPrepare (i : ℕ) (aa : ABIArgInfo AReg) : BridgeCode :=
  (if aa.callback then a2xCallback L i aa else []) ++ (if aa.block then a2xBlock L aa else []) ++
    if aa.stfp then a2xStfp L i aa else []

def a2xRet (aa : ABIArgInfo AReg) (xx : ABIArgInfo XReg) : Option BridgeCode :=
  match xx.indirect, aa.indirect with
  | true, false => (xx.teGetReg 0).map fun x =>
      [.addi .rsp (-bigEnoughSretSize), match x64Enum2Reg x with
        | .inl r => .mov r .rsp
        | .inr n => .movqTo n .rsp]
  | true, true => (xx.teGetReg 0).map fun x =>
      [match x64Enum2Reg x with
        | .inl r => .ld r .rbx (8 * 8)
        | .inr n => .movqLd n .rbx (8 * 8)]
  | false, _ => some []

def a2xPiece (base : Gpr) (q : (XReg × LocInfo) × ℕ) : BridgeCode :=
  match x64Enum2Reg q.1.1 with
  | .inr n => [.movapsLd n base q.2]
  | .inl r => .ld .rax base q.2 :: (tcgExtendArgInRaxByLocInfo q.1.2 ++ [.mov r .rax])

def a2xConcatPair (n : ℕ) (lower upper : ℕ) : BridgeCode :=
  [.ld32 .rax .rbx upper, .st32 .rax .rbx (lower + 4), .movapsLd n .rbx lower]

def a2xConcat (xs : List XReg) (aa : ABIArgInfo AReg) : Option BridgeCode :=
  let code j := (aa.teGetReg j).elim 0 AReg.code
  let offset j := a64Enum2Offset L (aa.teGetReg j)
  match xs with
  | [.xmm n] =>
    if aa.teNumOfReg = 2 ∧ code 0 + 1 = code 1 then some (a2xConcatPair n (offset 0) (offset 1))
    else none
  | [.xmm n, x] =>
    if (XReg.xmm n).code + 1 = x.code ∧ (aa.teNumOfReg = 3 ∨ aa.teNumOfReg = 4) ∧
        code 0 + 1 = code 1 ∧ code 1 + 1 = code 2 then
      -- with three registers the fourth reads as none, at offset zero
      some (a2xConcatPair n (offset 0) (offset 1) ++ a2xConcatPair (n + 1) (offset 2) (offset 3))
    else none
  | _ => none

def a2xMemFromRegs (offset size : ℕ) (info : LocInfo) (as : List AReg) : BridgeCode :=
  as.zipIdx.flatMap fun (a, j) =>
    if as.length * 16 = size then
      [.movapsLd 8 .rbx (a64Enum2Offset L (some a)), .movapsSt 8 .rsp (offset + 16 * j)]
    else .ld .rax .rbx (a64Enum2Offset L (some a)) ::
      (tcgExtendArgInRaxByLocInfo info ++ [.st .rax .rsp (offset + 8 * j)])

def a2xCopy (setup : BridgeCode) (size offset : ℕ) : BridgeCode :=
  [.push .rdi, .push .rsi, .push .rcx, .movi .rcx size] ++ setup ++
    [.mov .rdi .rsp, .addi .rdi (offset + 8 * 3), .repMovsb, .pop .rcx, .pop .rsi, .pop .rdi]

def a2xArg (aa : ABIArgInfo AReg) (xx : ABIArgInfo XReg) : Option BridgeCode :=
  if (!xx.teIsMem && xx.teNumOfReg == 0) || (!aa.teIsMem && aa.teNumOfReg == 0) then some []
  else if xx.indirect then none
  else
    match xx.loc, aa.indirect, aa.loc with
    | .regs xs, false, .regs _ =>
      if xx.teNumOfReg = aa.teNumOfReg then some ((regPairs L xs aa).flatMap (a2xPiece .rbx))
      else if xx.teNumOfReg < aa.teNumOfReg then a2xConcat L xx.regs aa
      else none
    | .regs xs, false, .mem offset _ =>
      some (.ld .r11 .rbx spOffset ::
        (regOffsets aa.size xs.length xs offset).flatMap (a2xPiece .r11))
    | .regs _, true, _ => none
    | .mem offset info, false, .regs _ => some (a2xMemFromRegs L offset xx.size info aa.regs)
    | .mem offset info, false, .mem aaOffset _ =>
      if aa.size = xx.size then
        some (a2xCopy [.ld .rsi .rbx spOffset, .addi .rsi aaOffset] aa.size offset ++
          if aa.size ≤ 2 then .ld .rax .rsp offset ::
            (tcgExtendArgInRaxByLocInfo info ++ [.st .rax .rsp offset])
          else [])
      else none
    | .mem offset _, true, .regs _ =>
      if xx.size > 2 then
        some (a2xCopy [.ld .rsi .rbx (a64Enum2Offset L (aa.teGetReg 0))] xx.size offset)
      else none
    | .mem offset _, true, .mem aaOffset _ =>
      if xx.size > 2 then
        some (a2xCopy [.ld .rax .rbx spOffset, .ld .rsi .rax aaOffset] xx.size offset)
      else none

def a2xArgs : List (ABIArgInfo AReg) → List (ABIArgInfo XReg) → Option BridgeCode
  | _, [] => some []
  | aa :: aas, xx :: xxs => (a2xArg L aa xx).bind fun code => (a2xArgs aas xxs).map (code ++ ·)
  | [], _ :: _ => none

/-- `abi_a2x_entry_translation`. -/
def abiA2xEntryTranslation (aaInfo : ABIFnInfo AReg) (xxInfo : ABIFnInfo XReg) : Option BridgeCode :=
  (a2xRet aaInfo.rinfo xxInfo.rinfo).bind fun ret =>
    (a2xArgs L aaInfo.ainfo xxInfo.ainfo).map fun args =>
      (aaInfo.ainfo.take xxInfo.ainfo.length).zipIdx.flatMap (fun (aa, i) => a2xPrepare L i aa) ++
        ret ++ .addi .rsp (-ffiAlign xxInfo.bytes 16) :: (args ++ [.movi .rax xxInfo.ssecount])

end Code

end Iqemu64
