import Iqemu64.ArgViews
import Iqemu64.MemMoves

/-!
# Dynamic argument translation, guest to host

`abiDyA2xEntryTransInternal` fills a block of fake registers and a fake stack above it from the guest
state, argument by argument. Each placement pair of an argument is a list of block copies. An
assertion that does not hold is `none`.
-/

namespace Iqemu64
open ByteMemory

def x64Enum2Ptr : XReg → ℕ
  | .rax | .eax | .ax | .al => 176
  | .rdi | .edi => 0
  | .rsi | .esi => 8
  | .rdx | .edx | .dl => 16
  | .rcx | .ecx => 24
  | .r8 | .r8d => 32
  | .r9 | .r9d => 40
  | .xmm n => 48 + 16 * n

def registerArgsSize : ℕ := 184

section Code
variable (L : EnvLayout) (env argSpace sp : ℕ)

def dyToReg (x : XReg) (src size : ℕ) (info : LocInfo := .noLocInfo) : Move where
  dst := argSpace + x64Enum2Ptr x
  src := src
  size := size
  widening := info.widening

def dyToStack (offset src size : ℕ) (info : LocInfo := .noLocInfo) : Move where
  dst := argSpace + registerArgsSize + offset
  src := src
  size := size
  widening := info.widening

def dySrc (a : Option AReg) : ℕ := env + a64Enum2Offset L a

def dyOneByOne (xs : List (XReg × LocInfo)) (aa : ABIArgInfo AReg) : List Move :=
  xs.zipIdx.map fun ((x, info), j) =>
    if x.isXmm then dyToReg argSpace x (dySrc L env (aa.teGetReg j)) 16
    else dyToReg argSpace x (dySrc L env (aa.teGetReg j)) 8 info

def dyConcat (xs : List XReg) (as : List AReg) : Option (List Move) :=
  let half (x : XReg) (upper : ℕ) (a : AReg) : Move :=
    { dst := argSpace + x64Enum2Ptr x + upper, src := dySrc L env (some a), size := 4 }
  match xs, as with
  | [x], [a₀, a₁] =>
    if x.isXmm && a₀.code + 1 == a₁.code then some [half x 0 a₀, half x 4 a₁] else none
  | [x₀, x₁], [a₀, a₁, a₂] =>
    if x₀.isXmm && x₀.code + 1 == x₁.code && a₀.code + 1 == a₁.code && a₁.code + 1 == a₂.code then
      some [half x₀ 0 a₀, half x₀ 4 a₁, half x₁ 0 a₂]
    else none
  | [x₀, x₁], [a₀, a₁, a₂, a₃] =>
    if x₀.isXmm && x₀.code + 1 == x₁.code && a₀.code + 1 == a₁.code && a₁.code + 1 == a₂.code then
      some [half x₀ 0 a₀, half x₀ 4 a₁, half x₁ 0 a₂, half x₁ 4 a₃]
    else none
  | _, _ => none

def dyRegsFromMem (xs : List (XReg × LocInfo)) (offset size : ℕ) : List Move :=
  xs.zipIdx.map fun ((x, info), j) =>
    if xs.length * 16 = size then dyToReg argSpace x (sp + offset + 16 * j) 16
    else dyToReg argSpace x (sp + offset + 8 * j) 8 info

def dyMemFromRegs (offset size : ℕ) (info : LocInfo) (as : List AReg) : List Move :=
  as.zipIdx.map fun (a, j) =>
    if as.length * 16 = size then dyToStack argSpace (offset + 16 * j) (dySrc L env (some a)) 16
    else dyToStack argSpace (offset + 8 * j) (dySrc L env (some a)) 8 info

def dyArg (aa : ABIArgInfo AReg) (xx : ABIArgInfo XReg) (m : Mem) : Option Mem :=
  if (!xx.teIsMem && xx.teNumOfReg == 0) || (!aa.teIsMem && aa.teNumOfReg == 0) then some m
  else if xx.indirect then none
  else
    match xx.loc, aa.indirect, aa.loc with
    | .regs xs, false, .regs _ =>
      if xx.teNumOfReg = aa.teNumOfReg then some (runMoves (dyOneByOne L env argSpace xs aa) m)
      else if xx.teNumOfReg < aa.teNumOfReg then
        (dyConcat L env argSpace xx.regs aa.regs).map fun mvs => runMoves mvs m
      else none
    | .regs xs, false, .mem offset _ => some (runMoves (dyRegsFromMem argSpace sp xs offset aa.size) m)
    | .regs _, true, _ => none
    | .mem offset info, false, .regs _ =>
      some (runMoves (dyMemFromRegs L env argSpace offset xx.size info aa.regs) m)
    | .mem offset info, false, .mem aaOffset _ =>
      if aa.size = xx.size then
        some (runMoves [dyToStack argSpace offset (sp + aaOffset) aa.size
          (if aa.size ≤ 2 then info else .noLocInfo)] m)
      else none
    | .mem offset _, true, _ =>
      -- the register or the stack slot of the argument holds a pointer
      if xx.size > 2 then
        some (runMoves [dyToStack argSpace offset (m.loadWord (aa.slotAddr L env sp) 8) xx.size] m)
      else none

/-- The argument loop. The source indexes both lists by the x86-64 argument count. -/
def dyArgs : List (ABIArgInfo AReg) → List (ABIArgInfo XReg) → Mem → Option Mem
  | _, [], m => some m
  | aa :: aas, xx :: xxs, m => (dyArg L env argSpace sp aa xx m).bind (dyArgs aas xxs)
  | [], _ :: _, _ => none

def dyRet (sret : ℕ) (aaRet : ABIArgInfo AReg) (xxRet : ABIArgInfo XReg) (m : Mem) : Option Mem :=
  match xxRet.indirect, aaRet.indirect with
  | true, false => (xxRet.teGetReg 0).map fun x => m.storeWord (argSpace + x64Enum2Ptr x) 8 sret
  | true, true => (xxRet.teGetReg 0).map fun x => m.memcpy (argSpace + x64Enum2Ptr x) (env + 8 * 8) 8
  | false, _ => some m

/-- `abi_dy_a2x_entry_trans_internal`. -/
def abiDyA2xEntryTransInternal (sret : ℕ) (aaInfo : ABIFnInfo AReg) (xxInfo : ABIFnInfo XReg)
    (m : Mem) : Option Mem :=
  (dyRet env argSpace sret aaInfo.rinfo xxInfo.rinfo m).bind fun m =>
    (dyArgs L env argSpace sp aaInfo.ainfo xxInfo.ainfo m).map fun m =>
      m.storeWord (argSpace + 176) 8 xxInfo.ssecount

end Code

def dyHostView (argSpace : ℕ) (m : Mem) : HostView where
  reg r k := m (argSpace + x64Enum2Ptr r + k)
  stack o := m (argSpace + registerArgsSize + o)

end Iqemu64
