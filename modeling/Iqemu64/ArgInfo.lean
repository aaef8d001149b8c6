import Iqemu64.FfiType

/-!
# Argument placements

`ABIArgInfo` says where one argument or result lives: in up to four registers, or at an offset in
the stack argument area. It is shared by both conventions and generic in their register names.

The source packs the location in a union and marks memory with a mask bit. Here `ArgLoc` is a sum,
so a memory location has no registers to read.
-/

namespace Iqemu64

/-- `enum aarch64_reg` without `NoRegister`. -/
inductive AReg where
  | s (n : ℕ) | d (n : ℕ) | q (n : ℕ) | w (n : ℕ) | x (n : ℕ)
  deriving DecidableEq, Repr

def AReg.code : AReg → ℕ
  | s n => 1 + n
  | d n => 9 + n
  | q n => 17 + n
  | w n => 25 + n
  | x n => 33 + n

/-- `enum x86_64_reg` without `xNoRegister` and the x87 registers. -/
inductive XReg where
  | rax | eax | ax | al | rdi | edi | rsi | esi | rdx | edx | dl | rcx | ecx | r8 | r8d | r9 | r9d
  | xmm (n : ℕ)
  deriving DecidableEq, Repr

def XReg.code : XReg → ℕ
  | rax => 1 | eax => 2 | ax => 3 | al => 4 | rdi => 5 | edi => 6 | rsi => 7 | esi => 8
  | rdx => 9 | edx => 10 | dl => 11 | rcx => 12 | ecx => 13 | r8 => 14 | r8d => 15 | r9 => 16
  | r9d => 17 | xmm n => 18 + n

def XReg.isXmm : XReg → Bool
  | xmm _ => true
  | _ => false

inductive LocInfo where
  | noLocInfo | full | bcvt | aext | sext8to32 | sext16to32 | zext8to32 | zext16to32
  deriving DecidableEq, Repr

inductive ArgLoc (R : Type) where
  | regs (rs : List (R × LocInfo))
  | mem (offset : ℕ) (info : LocInfo)
  deriving DecidableEq, Repr

structure ABIArgInfo (R : Type) where
  loc : ArgLoc R := .regs []
  size : ℕ := 0
  indirect : Bool := false
  callback : Bool := false
  block : Bool := false
  stfp : Bool := false
  deriving DecidableEq, Repr

structure ABIFnInfo (R : Type) where
  ainfo : List (ABIArgInfo R)
  rinfo : ABIArgInfo R
  bytes : ℕ
  ssecount : ℕ := 0
  isCxxStructor : Bool := false
  deriving DecidableEq, Repr

namespace ABIArgInfo

variable {R : Type} (a : ABIArgInfo R)

def teIsMem : Bool :=
  match a.loc with
  | .regs _ => false
  | .mem _ _ => true

def regs : List R :=
  match a.loc with
  | .regs rs => rs.map Prod.fst
  | .mem _ _ => []

def teNumOfReg : ℕ := a.regs.length

/-- Register number `j`; past the last one the source reads `NoRegister`. -/
def teGetReg (j : ℕ) : Option R := a.regs[j]?

def teGetRegLocinfo (j : ℕ) : LocInfo :=
  match a.loc with
  | .regs rs => (rs[j]?.map Prod.snd).getD .noLocInfo
  | .mem _ _ => .noLocInfo

def teGetMem : ℕ :=
  match a.loc with
  | .regs _ => 0
  | .mem offset _ => offset

def teGetMemLocinfo : LocInfo :=
  match a.loc with
  | .regs _ => .noLocInfo
  | .mem _ info => info

end ABIArgInfo

end Iqemu64
