import Iqemu64.ArgInfo

/-!
# x86-64 placement of arguments and result

`myXxFiPrepCif` classifies each type by eightbytes and places it by the System V rules. An argument
goes to registers as a whole or to the stack as a whole. A result in memory takes the first general
register for its address.
-/

namespace Iqemu64

inductive RegClass where
  | noClass | integer | integersi | sse | ssesf | ssedf | sseup | x87 | x87up | complexX87 | memory
  deriving DecidableEq, Repr

def mergeClasses (class1 class2 : RegClass) : RegClass :=
  if class1 = class2 then class1
  else if class1 = .noClass then class2
  else if class2 = .noClass then class1
  else if class1 = .memory ∨ class2 = .memory then .memory
  else if (class1 = .integersi ∧ class2 = .ssesf) ∨ (class2 = .integersi ∧ class1 = .ssesf) then
    .integersi
  else if class1 = .integer ∨ class1 = .integersi ∨ class2 = .integer ∨ class2 = .integersi then
    .integer
  else if class1 = .x87 ∨ class1 = .x87up ∨ class1 = .complexX87 ∨ class2 = .x87 ∨
      class2 = .x87up ∨ class2 = .complexX87 then .memory
  else .sse

/-- A class array of the source. An element that was never written is `none`, and reading it
fails. -/
abbrev Classes : Type := ℕ → Option RegClass

namespace Classes

def uninitialised : Classes := fun _ => none

def set (cs : Classes) (i : ℕ) (c : RegClass) : Classes := fun j => if j = i then some c else cs j

def clear (cs : Classes) (n : ℕ) : Classes := fun i => if i < n then some .noClass else cs i

def mergeFrom (cs sub : Classes) (pos num : ℕ) : Option Classes :=
  (List.range num).foldlM (fun (cs : Classes) i => do
    let c ← sub i
    let d ← cs (i + pos)
    pure (cs.set (i + pos) (mergeClasses c d))) cs

def cleanup : List ℕ → Classes → Option (Bool × Classes)
  | [], cs => some (true, cs)
  | i :: is, cs => do
    let c ← cs i
    if c = .memory then return (false, cs)
    if i > 1 ∧ c = .sseup then
      let d ← cs (i - 1)
      cleanup is (if d ≠ .sse ∧ d ≠ .sseup then cs.set i .sse else cs)
    else if i > 1 ∧ c = .x87up then
      let d ← cs (i - 1)
      if d ≠ .x87 then return (false, cs)
      cleanup is cs
    else cleanup is cs

def wide (cs : Classes) (words : ℕ) : Option Bool := do
  if words ≤ 2 then return true
  let c ← cs 0
  if c ≠ .sse then return false
  (List.range (words - 1)).foldlM (fun b i => do
    let d ← cs (i + 1)
    pure (b && d = .sseup)) true

end Classes

def classifyInteger (classes : Classes) (size : ℕ) : Option (ℕ × Classes) :=
  if size ≤ 4 then some (1, classes.set 0 .integersi)
  else if size ≤ 8 then some (1, classes.set 0 .integer)
  else if size ≤ 12 then some (2, (classes.set 0 .integer).set 1 .integersi)
  else if size ≤ 16 then some (2, (classes.set 1 .integer).set 0 .integer)
  else none

mutual

def classifyArgument : FfiType → Classes → ℕ → Option (ℕ × Classes)
  | .mk size _ type elements, classes, byteOffset =>
    match type with
    | .uint8 | .sint8 | .uint16 | .sint16 | .uint32 | .sint32 | .uint64 | .sint64 | .pointer =>
      classifyInteger classes (byteOffset + size)
    | .float => some (1, classes.set 0 (if byteOffset % 8 = 0 then .ssesf else .sse))
    | .double => some (1, classes.set 0 .ssedf)
    | .void => some (1, classes.set 0 .noClass)
    | .struct =>
      let words := (size + 8 - 1) / 8
      if size > 32 then some (0, classes)
      else if words = 0 then some (1, classes.set 0 .noClass)
      else do
        let (inRegs, classes) ←
          classifyElements elements .uninitialised (classes.clear words) byteOffset
        if !inRegs then return (0, classes)
        if !(← classes.wide words) then return (0, classes)
        let (inRegs, classes) ← classes.cleanup (List.range words)
        return (if inRegs then words else 0, classes)
    | .complex =>
      match elements with
      | [] => none
      | inner :: _ =>
        match inner.type with
        | .int | .uint8 | .sint8 | .uint16 | .sint16 | .uint32 | .sint32 | .uint64 | .sint64 =>
          classifyInteger classes (byteOffset + size)
        | .float =>
          if byteOffset % 8 ≠ 0 then some (2, (classes.set 0 .sse).set 1 .ssesf)
          else some (1, classes.set 0 .sse)
        | .double => some (2, (classes.set 1 .ssedf).set 0 .ssedf)
        | _ => none
    | .int | .longdouble => none

def classifyElements : List FfiType → Classes → Classes → ℕ → Option (Bool × Classes)
  | [], _, classes, _ => some (true, classes)
  | e :: es, sub, classes, byteOffset =>
    let byteOffset := ffiAlign byteOffset e.alignment
    (classifyArgument e sub (byteOffset % 8)).bind fun (num, sub) =>
      if num = 0 then some (false, classes)
      else
        (classes.mergeFrom sub (byteOffset / 8) num).bind fun classes =>
          classifyElements es sub classes (byteOffset + e.size)

end

structure Examined where
  classes : List RegClass
  ngpr : ℕ
  nsse : ℕ
  deriving DecidableEq, Repr

def RegClass.isGpr : RegClass → Bool
  | .integer | .integersi => true
  | _ => false

def RegClass.isSse : RegClass → Bool
  | .sse | .ssesf | .ssedf => true
  | _ => false

def examineArgument (ty : FfiType) (inReturn : Bool) : Option Examined := do
  let (n, cs) ← classifyArgument ty .uninitialised 0
  let classes ← (List.range n).mapM fun i => cs i
  if .memory ∈ classes then none
  else if classes.any fun c => c = .x87 ∨ c = .x87up ∨ c = .complexX87 then
    return ⟨if inReturn then classes.take 1 else [], 0, 0⟩
  else return ⟨classes, classes.countP RegClass.isGpr, classes.countP RegClass.isSse⟩

inductive XxRet where
  | void | uint8 | sint8 | uint16 | sint16 | uint32 | sint32 | int64 | xmm32 | xmm64
  | stXmm0Rax | stRaxXmm0 | stXmm0Xmm1 | stRaxRdx | inMem
  deriving DecidableEq, Repr

def RegClass.sseClassP (c : RegClass) : Bool := c.isSse || c == .sseup

def xxStructRet (size : ℕ) (classes : List RegClass) : XxRet :=
  let sse0 := classes.head?.any RegClass.sseClassP
  let sse1 := classes.length == 2 && classes[1]?.any RegClass.sseClassP
  if classes = [] then .inMem
  else if size = 4 ∧ sse0 then .xmm32
  else if size = 8 then if sse0 then .xmm64 else .int64
  else if sse0 && sse1 then .stXmm0Xmm1
  else if sse0 then .stXmm0Rax
  else if sse1 then .stRaxXmm0
  else .stRaxRdx

def xxRetFlags (rtype : FfiType) : Option XxRet :=
  match rtype.type with
  | .void => some .void
  | .uint8 => some .uint8
  | .sint8 => some .sint8
  | .uint16 => some .uint16
  | .sint16 => some .sint16
  | .uint32 => some .uint32
  | .int | .sint32 => some .sint32
  | .uint64 | .sint64 | .pointer => some .int64
  | .float => some .xmm32
  | .double => some .xmm64
  | .struct => (examineArgument rtype true).map fun e => xxStructRet rtype.size e.classes
  | .complex =>
    rtype.elements.head?.bind fun inner =>
      match inner.type with
      | .uint8 | .sint8 | .uint16 | .sint16 | .int | .uint32 | .sint32 | .uint64 | .sint64 =>
        some .stRaxRdx
      | .float => some .xmm64
      | .double => some .stXmm0Xmm1
      | _ => none
  | .longdouble => none

def xxRetInfo : XxRet → ABIArgInfo XReg
  | .void => {}
  | .uint8 => { loc := .regs [(.al, .zext8to32)] }
  | .sint8 => { loc := .regs [(.al, .sext8to32)] }
  | .uint16 => { loc := .regs [(.ax, .zext16to32)] }
  | .sint16 => { loc := .regs [(.ax, .sext16to32)] }
  | .uint32 | .sint32 => { loc := .regs [(.eax, .full)] }
  | .int64 => { loc := .regs [(.rax, .full)] }
  | .xmm32 | .xmm64 => { loc := .regs [(.xmm 0, .full)] }
  | .stXmm0Rax => { loc := .regs [(.xmm 0, .full), (.rax, .full)] }
  | .stRaxXmm0 => { loc := .regs [(.rax, .full), (.xmm 0, .full)] }
  | .stXmm0Xmm1 => { loc := .regs [(.xmm 0, .full), (.xmm 1, .full)] }
  | .stRaxRdx => { loc := .regs [(.rax, .full), (.rdx, .full)] }
  | .inMem => { loc := .regs [(.rdi, .full)], indirect := true }

structure XxAlloc where
  gprcount : ℕ := 0
  ssecount : ℕ := 0
  bytes : ℕ := 0
  deriving DecidableEq, Repr

def gprcnt2reg : List XReg := [.rdi, .rsi, .rdx, .rcx, .r8, .r9]

def ssecnt2reg : List XReg := (List.range 8).map .xmm

def xxLocInfo : FfiTypeTag → LocInfo
  | .sint8 => .sext8to32
  | .sint16 => .sext16to32
  | .uint8 => .zext8to32
  | .uint16 => .zext16to32
  | _ => .full

def xxRegs (tag : FfiTypeTag) : List RegClass → XxAlloc → Option (List (XReg × LocInfo) × XxAlloc)
  | [], al => some ([], al)
  | c :: cs, al =>
    match c with
    | .noClass | .sseup => xxRegs tag cs al
    | .integer | .integersi =>
      gprcnt2reg[al.gprcount]?.bind fun r =>
        (xxRegs tag cs { al with gprcount := al.gprcount + 1 }).map
          fun (rs, al) => ((r, xxLocInfo tag) :: rs, al)
    | .sse | .ssesf | .ssedf =>
      ssecnt2reg[al.ssecount]?.bind fun r =>
        (xxRegs tag cs { al with ssecount := al.ssecount + 1 }).map
          fun (rs, al) => ((r, .full) :: rs, al)
    | _ => none

def xxArg (ty : FfiType) (al : XxAlloc) : Option (ABIArgInfo XReg × XxAlloc) :=
  (examineArgument ty false).bind fun e =>
    if e.classes = [] ∨ al.gprcount + e.ngpr > 6 ∨ al.ssecount + e.nsse > 8 then
      let offset := ffiAlign al.bytes (if ty.alignment < 8 then 8 else ty.alignment)
      some ({ loc := .mem offset (xxLocInfo ty.type), size := ty.size },
        { al with bytes := offset + ty.size })
    else
      (xxRegs ty.type e.classes al).map fun (rs, al) => ({ loc := .regs rs, size := ty.size }, al)

def xxArgs : List FfiType → XxAlloc → Option (List (ABIArgInfo XReg) × XxAlloc)
  | [], al => some ([], al)
  | ty :: tys, al =>
    (xxArg ty al).bind fun (info, al) =>
      (xxArgs tys al).map fun (infos, al) => (info :: infos, al)

def myXxFiPrepCifMachdep (rtype : FfiType) (atypes : List FfiType) : Option (ABIFnInfo XReg) :=
  (xxRetFlags rtype).bind fun flags =>
    (xxArgs atypes { gprcount := if flags = .inMem then 1 else 0 }).map fun (ainfo, al) =>
      { ainfo, rinfo := xxRetInfo flags, bytes := ffiAlign al.bytes 8, ssecount := al.ssecount }

def myXxFiPrepCif (rtype : FfiType) (atypes : List FfiType) : Option (ABIFnInfo XReg) :=
  (initializeType rtype).bind fun rtype =>
    (atypes.mapM initializeType).bind fun atypes => myXxFiPrepCifMachdep rtype atypes

end Iqemu64
