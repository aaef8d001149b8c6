import Mathlib.Data.List.Basic

/-!
# The ops of the code generator

A translated block is a list of ops over temps. An opcode fixes the number of output, input and
constant arguments of its ops and a few flags, as the table of op definitions gives them; a call has
as many outputs and inputs as its helper. Temps are numbered with the globals first.
-/

namespace Iqemu64

namespace Tcg

/-- `TCGType`, for integers. -/
inductive Ty where
  | i32
  | i64
  deriving DecidableEq, Repr

abbrev Temp := ℕ

abbrev Label := ℕ

inductive Cond where
  | eq | ne | lt | ge | le | gt | ltu | geu | leu | gtu
  deriving DecidableEq, Repr

inductive UnOp where
  | not (w : Ty) | neg (w : Ty) | ext8s (w : Ty) | ext8u (w : Ty) | ext16s (w : Ty) | ext16u (w : Ty)
  | ctpop (w : Ty) | bswap16 (w : Ty) | bswap32 (w : Ty) | bswap64 | ext32s | ext32u
  | extI32I64 | extuI32I64 | extrlI64I32 | extrhI64I32
  deriving DecidableEq, Repr

inductive BinOp where
  | add | sub | mul | div | divu | rem | remu | and | or | xor | shl | shr | sar | rotl | rotr
  | andc | orc | eqv | nand | nor | clz | ctz | muluh | mulsh
  deriving DecidableEq, Repr

inductive LdOp where
  | ld8u (w : Ty) | ld8s (w : Ty) | ld16u (w : Ty) | ld16s (w : Ty) | ld32u | ld32s | ld (w : Ty)
  deriving DecidableEq, Repr

inductive StOp where
  | st8 (w : Ty) | st16 (w : Ty) | st32 | st (w : Ty)
  deriving DecidableEq, Repr

inductive VecOp where
  | mov | dupi | dup | dup2 | add | sub | mul | neg | abs | ssadd | usadd | sssub | ussub
  | smin | umin | smax | umax | and | or | xor | andc | orc | not | shli | shri | sari
  | shls | shrs | sars | shlv | shrv | sarv | cmp | bitsel | cmpsel
  | x86Shufps | x86Vpblendvb | x86Blend | x86Packss | x86Packus | x86Psrldq | x86Vperm2i128
  | x86Punpckl | x86Punpckh
  deriving DecidableEq, Repr

inductive Opcode where
  | discard | setLabel | call | br | mb
  | mov (w : Ty) | movi (w : Ty) | setcond (w : Ty) | movcond (w : Ty)
  | ld (o : LdOp) | st (o : StOp)
  | bin (o : BinOp) (w : Ty) | un (o : UnOp)
  | div2 (w : Ty) | divu2 (w : Ty)
  | deposit (w : Ty) | extract (w : Ty) | sextract (w : Ty) | extract2 (w : Ty)
  | brcond (w : Ty)
  | add2 (w : Ty) | sub2 (w : Ty) | mulu2 (w : Ty) | muls2 (w : Ty)
  | brcond2 | setcond2
  | insnStart | exitTb | gotoTb | gotoPtr | pluginCbStart | pluginCbEnd
  | qemuLd (w : Ty) | qemuSt (w : Ty)
  | ldVec | stVec | dupmVec | vec (o : VecOp)
  deriving DecidableEq, Repr

namespace VecOp

def nbIargs : VecOp → ℕ
  | dupi => 0
  | mov | dup | neg | abs | not | shli | shri | sari | x86Psrldq => 1
  | bitsel | x86Vpblendvb => 3
  | cmpsel => 4
  | _ => 2

end VecOp

namespace Opcode

def nbOargs : Opcode → ℕ
  | setLabel | br | mb | st _ | brcond _ | brcond2 | insnStart | exitTb | gotoTb | gotoPtr => 0
  | call | pluginCbStart | pluginCbEnd | qemuSt _ | stVec => 0
  | div2 _ | divu2 _ | add2 _ | sub2 _ | mulu2 _ | muls2 _ => 2
  | _ => 1

def nbIargs : Opcode → ℕ
  | discard | setLabel | call | br | mb | movi _ | insnStart | exitTb | gotoTb => 0
  | pluginCbStart | pluginCbEnd => 0
  | mov _ | ld _ | un _ | extract _ | sextract _ | gotoPtr | qemuLd _ | ldVec | dupmVec => 1
  | setcond _ | st _ | bin _ _ | deposit _ | extract2 _ | brcond _ | mulu2 _ | muls2 _ => 2
  | qemuSt _ | stVec => 2
  | div2 _ | divu2 _ => 3
  | movcond _ | add2 _ | sub2 _ | brcond2 | setcond2 => 4
  | vec o => o.nbIargs

def bbExit : Opcode → Bool
  | exitTb | gotoTb | gotoPtr => true
  | _ => false

def bbEnd : Opcode → Bool
  | setLabel | br | brcond _ | brcond2 | exitTb | gotoTb | gotoPtr => true
  | _ => false

def sideEffects : Opcode → Bool
  | qemuLd _ | qemuSt _ => true
  | _ => false

end Opcode

inductive Const where
  | num (v : BitVec 64)
  | cond (c : Cond)
  | label (l : Label)
  deriving DecidableEq, Repr

/-- `TCGOp`. The arguments stand in the order outputs, inputs, constants; those of a call are the
helper and its flags. -/
structure Op where
  opc : Opcode
  outs : List Temp
  ins : List Temp
  consts : List Const
  deriving DecidableEq, Repr

namespace Op

/-- The arguments agree with the op's definition, and no temp receives two results. -/
structure WellFormed (op : Op) : Prop where
  outs_length : op.opc ≠ .call → op.outs.length = op.opc.nbOargs
  ins_length : op.opc ≠ .call → op.ins.length = op.opc.nbIargs
  outs_nodup : op.outs.Nodup

def out0 (op : Op) : Temp := op.outs.headD 0

end Op

def callFlags : List Const → BitVec 64
  | [_, .num flags] => flags
  | _ => 0

def noReadGlobals (flags : BitVec 64) : Bool := flags.getLsbD 0

def noWriteGlobals (flags : BitVec 64) : Bool := flags.getLsbD 1

def noSideEffects (flags : BitVec 64) : Bool := flags.getLsbD 2

/-- The temps of a translation: the first are globals, and of the others some are local temps, which
keep their value over the end of a basic block. -/
structure TempTable where
  nbGlobals : ℕ
  tempLocal : Temp → Bool

def TempTable.isGlobal (T : TempTable) (t : Temp) : Bool := decide (t < T.nbGlobals)

end Tcg

end Iqemu64
