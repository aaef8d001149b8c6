import Iqemu64.ArgInfo

/-!
# AArch64 placement of arguments and result

`myAaFiPrepCif` and `myAaFiPrepCifVar` place the result and the arguments of a call by the rules of
the iOS procedure call standard. Homogeneous aggregates of one to four floating-point members take
one vector register per member, other structs of at most 16 bytes take general registers, and larger
ones are replaced by a pointer. Variadic arguments go to 8-aligned stack slots.
-/

namespace Iqemu64
open FfiTypeTag

def FfiTypeTag.code : FfiTypeTag → ℕ
  | .void => 0
  | .int => 1
  | .float => 2
  | .double => 3
  | .longdouble => 4
  | .uint8 => 5
  | .sint8 => 6
  | .uint16 => 7
  | .sint16 => 8
  | .uint32 => 9
  | .sint32 => 10
  | .uint64 => 11
  | .sint64 => 12
  | .struct => 13
  | .pointer => 14
  | .complex => 15

def FfiTypeTag.isAggregate (t : FfiTypeTag) : Bool := t == .struct || t == .complex

mutual

def isHfa0 : FfiType → Option FfiTypeTag
  | .mk _ _ _ elements => isHfa0Elements elements

def isHfa0Elements : List FfiType → Option FfiTypeTag
  | [] => none
  | e :: es =>
    if e.type.isAggregate then
      match isHfa0 e with
      | none => isHfa0Elements es
      | some t => some t
    else some e.type

end

mutual

def isHfa1 (candidate : FfiTypeTag) : FfiType → Bool
  | .mk _ _ _ elements => isHfa1Elements candidate elements

def isHfa1Elements (candidate : FfiTypeTag) : List FfiType → Bool
  | [] => true
  | e :: es =>
    (if e.type.isAggregate then isHfa1 candidate e else e.type == candidate) &&
      isHfa1Elements candidate es

end

/-- The candidate member type: the first member's own, or what `isHfa0` finds in the members in
turn. The source does not stop this search at the end of the list. -/
def hfaCandidate : List FfiType → Option FfiTypeTag
  | [] => none
  | e :: es => if e.type.isAggregate then (e :: es).findSome? isHfa0 else some e.type

def vfpEncode (candidate : FfiTypeTag) (size width : ℕ) (same : Bool) : ℕ :=
  let eleCount := size / width
  if size ≠ eleCount * width then 0
  else if eleCount > 4 then 0
  else if same then candidate.code * 4 + (4 - eleCount)
  else 0

/-- `is_vfp_type`: zero, or a code that holds the member type and the member count of a type passed
in vector registers. A struct descriptor without members is dereferenced out of bounds. -/
def isVfpType (ty : FfiType) : Option ℕ :=
  match ty.type with
  | .float => some (float.code * 4 + (4 - 1))
  | .double => some (double.code * 4 + (4 - 1))
  | .longdouble => some (longdouble.code * 4 + (4 - 1))
  | .complex =>
    ty.elements.head?.map fun e =>
      if e.type == .float || e.type == .double || e.type == .longdouble then
        e.type.code * 4 + (4 - 2)
      else 0
  | .struct =>
    if ty.size < 4 ∨ ty.size > 64 then some 0
    else
      (hfaCandidate ty.elements).map fun candidate =>
        let same := isHfa1Elements candidate ty.elements
        match candidate with
        | .float => vfpEncode candidate ty.size 4 same
        | .double => vfpEncode candidate ty.size 8 same
        | .longdouble => vfpEncode candidate ty.size 16 same
        | _ => 0
  | _ => some 0

inductive AaRet where
  | void | int64 | int128 | vfp (code : ℕ)
  | uint8 | uint16 | uint32 | sint8 | sint16 | sint32
  | inMem
  deriving DecidableEq, Repr

def aaRetFlags (rtype : FfiType) : Option AaRet :=
  match rtype.type with
  | .void => some .void
  | .uint8 => some .uint8
  | .uint16 => some .uint16
  | .uint32 => some .uint32
  | .sint8 => some .sint8
  | .sint16 => some .sint16
  | .int | .sint32 => some .sint32
  | .sint64 | .uint64 | .pointer => some .int64
  | .float | .double | .longdouble | .struct | .complex =>
    (isVfpType rtype).map fun flags =>
      if flags = 0 then
        if rtype.size > 16 then .inMem
        else if rtype.size = 16 then .int128
        else if rtype.size = 8 then .int64
        else .int128
      else .vfp flags

def aaRegs (reg : ℕ → AReg) (start n : ℕ) : List (AReg × LocInfo) :=
  (List.range n).map fun i => (reg (start + i), .noLocInfo)

def aaRetInfo (flags : AaRet) : ABIArgInfo AReg :=
  match flags with
  | .void => {}
  | .int64 => { loc := .regs (aaRegs .x 0 1) }
  | .int128 => { loc := .regs (aaRegs .x 0 2) }
  | .vfp code =>
    let bank : ℕ → AReg :=
      if code / 4 = float.code then .s
      else if code / 4 = double.code then .d
      else .q
    { loc := .regs (aaRegs bank 0 (4 - code % 4)) }
  | .uint8 | .uint16 | .uint32 | .sint8 | .sint16 | .sint32 => { loc := .regs (aaRegs .w 0 1) }
  | .inMem => { loc := .regs (aaRegs .x 8 1), indirect := true }

structure AaAlloc where
  gprcount : ℕ := 0
  ssecount : ℕ := 0
  stackOffset : ℕ := 0
  allocatingVariadic : Bool := false
  deriving DecidableEq, Repr

namespace AaAlloc

def memOffset (al : AaAlloc) (alignment : ℕ) : ℕ :=
  ffiAlign al.stackOffset (if al.allocatingVariadic && alignment < 8 then 8 else alignment)

def passInMemory (al : AaAlloc) (alignment tySize : ℕ) : ArgLoc AReg × AaAlloc :=
  (.mem (al.memOffset alignment) .noLocInfo,
    { al with stackOffset := al.memOffset alignment + tySize })

def passInGpr (al : AaAlloc) (n alignment tySize : ℕ) : ArgLoc AReg × AaAlloc :=
  if al.gprcount + n ≤ 8 then
    (.regs (aaRegs .x al.gprcount n), { al with gprcount := al.gprcount + n })
  else ({ al with gprcount := 8 } : AaAlloc).passInMemory alignment tySize

def passInVector (al : AaAlloc) (elems alignment tySize : ℕ) : ArgLoc AReg × AaAlloc :=
  if al.ssecount + elems ≤ 8 then
    (.regs (aaRegs .q al.ssecount elems), { al with ssecount := al.ssecount + elems })
  else ({ al with ssecount := 8 } : AaAlloc).passInMemory alignment tySize

def enterVariadic (al : AaAlloc) : AaAlloc :=
  { al with gprcount := 8, ssecount := 8, allocatingVariadic := true }

end AaAlloc

/-- One turn of the argument loop. A void argument fails an assertion. -/
def aaArg (ty : FfiType) (al : AaAlloc) : Option (ABIArgInfo AReg × AaAlloc) :=
  match ty.type with
  | .void => none
  | .int | .uint8 | .sint8 | .uint16 | .sint16 | .uint32 | .sint32 | .uint64 | .sint64 | .pointer =>
    let (loc, al) := al.passInGpr 1 ty.alignment ty.size
    some ({ loc, size := ty.size }, al)
  | .float | .double | .longdouble | .struct | .complex =>
    (isVfpType ty).map fun h =>
      if h ≠ 0 then
        let (loc, al) := al.passInVector (4 - h % 4) ty.alignment ty.size
        ({ loc, size := ty.size }, al)
      else if ty.size > 16 then
        let (loc, al) := al.passInGpr 1 ty.alignment 8
        ({ loc, size := ty.size, indirect := true }, al)
      else
        let (loc, al) := al.passInGpr ((ty.size + 7) / 8) ty.alignment ty.size
        ({ loc, size := ty.size }, al)

def aaArgs (nfixedargs : ℕ) : List FfiType → ℕ → AaAlloc → Option (List (ABIArgInfo AReg) × AaAlloc)
  | [], _, al => some ([], al)
  | ty :: tys, i, al =>
    (aaArg ty al).bind fun (info, al) =>
      (aaArgs nfixedargs tys (i + 1) (if i + 1 = nfixedargs then al.enterVariadic else al)).map
        fun (infos, al) => (info :: infos, al)

def myAaFiPrepCifMachdep (nfixedargs : ℕ) (rtype : FfiType) (atypes : List FfiType) :
    Option (ABIFnInfo AReg) :=
  (aaRetFlags rtype).bind fun flags =>
    (aaArgs nfixedargs atypes 0 {}).map fun (ainfo, al) =>
      { ainfo, rinfo := aaRetInfo flags, bytes := al.stackOffset }

def myAaFiPrepCifCore (nfixedargs : ℕ) (rtype : FfiType) (atypes : List FfiType) :
    Option (ABIFnInfo AReg) :=
  (initializeType rtype).bind fun rtype =>
    (atypes.mapM initializeType).bind fun atypes => myAaFiPrepCifMachdep nfixedargs rtype atypes

def myAaFiPrepCif (rtype : FfiType) (atypes : List FfiType) : Option (ABIFnInfo AReg) :=
  myAaFiPrepCifCore 0 rtype atypes

/-- The variadic preparation asserts at least one fixed argument. -/
def myAaFiPrepCifVar (nfixed : ℕ) (rtype : FfiType) (atypes : List FfiType) :
    Option (ABIFnInfo AReg) :=
  if 1 ≤ nfixed ∧ nfixed ≤ atypes.length then myAaFiPrepCifCore nfixed rtype atypes else none

end Iqemu64
