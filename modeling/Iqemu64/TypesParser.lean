import Iqemu64.AaPrepCif
import Iqemu64.CString
import Iqemu64.XxPrepCif

/-!
# The parser of Objective-C type encodings

`getType` builds the descriptor of one type and `moveFwdAType` moves over a type without building
it. `handle` parses a whole signature and has both conventions place its arguments. An assertion that
does not hold aborts.
-/

namespace Iqemu64
open CString Scalar

def toUnsigned (v : ℤ) : ℕ := (v % 2 ^ 32).toNat

theorem toUnsigned_min {n : ℕ} (h : n < 2 ^ 32) : toUnsigned (min (2 ^ 63 - 1) (n : ℤ)) = n := by
  unfold toUnsigned
  omega

def smplType : List Char :=
  ['c', 'i', 's', 'l', 'q', 'C', 'I', 'S', 'L', 'Q', 'f', 'd', 'B', 'v', '*', '#', ':', '?']

def aggrOpen : List Char := ['{', '[', '(']

def qualifiers : List Char := ['r', 'n', 'N', 'o', 'O', 'R', 'V']

def closeBrace : Char → Char
  | '{' => '}'
  | '[' => ']'
  | _ => ')'

/-- `moveFwdAggregate`. The nesting depth `left` is one byte wide. -/
def moveFwdAggregate (openBrace : Char) : BitVec 8 → List Char → Scan (List Char)
  | left, [] => if left = 0 then .ok [] else .error .overread
  | left, c :: str =>
    if left = 0 then .ok (c :: str)
    else if c = openBrace then moveFwdAggregate openBrace (left + 1) str
    else if c = closeBrace openBrace then moveFwdAggregate openBrace (left - 1) str
    else moveFwdAggregate openBrace left str

def moveFwdObject : List Char → Scan (List Char)
  | '"' :: str => skipPast '"' str
  | '?' :: '<' :: str => skipPast '>' str
  | '?' :: str => .ok str
  | str => .ok str

/-- `moveFwdAType`. At the end of the string `strchr` finds the terminating zero of its set, and the
caller reads on behind it. -/
def moveFwdAType : List Char → Scan (List Char)
  | [] => .error .overread
  | c :: str =>
    if c ∈ smplType then .ok str
    else if c ∈ aggrOpen then moveFwdAggregate c 1 str
    else if c = '^' then moveFwdAType str
    else if c ∈ qualifiers then moveFwdAType str
    else if c = '@' then moveFwdObject str
    else .error .abort

def smplFfi : Char → Option FfiType
  | 'c' => some sint8.ffi
  | 'i' => some sint32.ffi
  | 's' => some sint16.ffi
  | 'l' => some sint32.ffi
  | 'q' => some sint64.ffi
  | 'C' => some uint8.ffi
  | 'I' => some uint32.ffi
  | 'S' => some uint16.ffi
  | 'L' => some uint32.ffi
  | 'Q' => some uint64.ffi
  | 'f' => some float.ffi
  | 'd' => some double.ffi
  | 'B' => some uint8.ffi
  | 'v' => some (.mk 1 1 .void [])
  | '*' | '#' | ':' => some pointer.ffi
  | _ => none

def arrayFfi (nelmt : ℕ) (elmtTy : FfiType) : List Char → Scan (FfiType × List Char)
  | ']' :: str =>
    if (nelmt + 1) % 2 ^ 32 = 0 then .error .abort
    else .ok (.mk 0 0 .struct (List.replicate nelmt elmtTy), str)
  | _ => .error .abort

/-- The last part of `getUnionType`. Its loop over the members counts up the first descriptor instead
of the table and reads what happens to lie behind it. A union without members has no turn of the
loop. -/
def unionFfi : List FfiType → Scan FfiType
  | [] => .ok (.mk 0 0 .struct [.mk 0 0 .void []])
  | _ :: _ => .error .overread

mutual

/-- `getType`: the descriptor, whether the type is a block, and the text after it. The recursion
depth is limited by `fuel`. -/
def getType : ℕ → Bool → List Char → Scan (FfiType × Bool × List Char)
  | 0, _, _ => .error .unfinished
  | _ + 1, _, [] => .error .abort
  | fuel + 1, arrAsAggr, ch :: str =>
    match ch with
    | '@' => (moveFwdObject str).map fun rest => (pointer.ffi, str.head? = some '?', rest)
    | '^' => (moveFwdAType str).map fun rest => (pointer.ffi, false, rest)
    | '[' =>
      if arrAsAggr then
        (getType fuel true (strtol str).2).bind fun (elmtTy, _, rest) =>
          (arrayFfi (toUnsigned (strtol str).1) elmtTy rest).map fun (ty, rest) => (ty, false, rest)
      else (moveFwdAggregate '[' 1 str).map fun rest => (pointer.ffi, false, rest)
    | '{' =>
      (skipPast '=' str).bind fun str =>
        (getMembers fuel '}' str).map fun (elmts, rest) => (.mk 0 0 .struct elmts, false, rest)
    | '(' =>
      (skipPast '=' str).bind fun str =>
        (getMembers fuel ')' str).bind fun (elmts, rest) =>
          (unionFfi elmts).map fun ty => (ty, false, rest)
    | 'r' | 'n' | 'N' | 'o' | 'O' | 'R' | 'V' => getType fuel arrAsAggr str
    | _ =>
      match smplFfi ch with
      | some ty => .ok (ty, false, str)
      | none => .error .abort

def getMembers : ℕ → Char → List Char → Scan (List FfiType × List Char)
  | 0, _, _ => .error .unfinished
  | fuel + 1, close, str =>
    if str.head? = some close then .ok ([], str.tail)
    else
      (getType fuel true str).bind fun (ty, _, str) =>
        (getMembers fuel close str).map fun (elmts, rest) => (ty :: elmts, rest)

end

structure ParsedType where
  ffi : FfiType
  isBlock : Bool

def getOffsetType (fuel : ℕ) (str : List Char) : Scan (ParsedType × List Char) :=
  (getType fuel false str).map fun (ffi, isBlock, rest) => (⟨ffi, isBlock⟩, (strtol rest).2)

def getArgTypes : ℕ → List Char → Scan (List ParsedType × List Char)
  | 0, _ => .error .unfinished
  | fuel + 1, str =>
    if str = [] then .ok ([], str)
    else
      (getOffsetType fuel str).bind fun (ty, str) =>
        (getArgTypes fuel str).map fun (tys, rest) => (ty :: tys, rest)

structure ParsedTypes where
  ret : ParsedType
  args : List ParsedType
  rest : List Char

/-- The first half of `handle`, which gives up on an empty string. Every turn of a loop reads a
character, so that the length of the string is fuel enough. -/
def handleTypes (types : List Char) : Scan (Option ParsedTypes) :=
  if types = [] then .ok none
  else
    (getOffsetType (types.length + 1) types).bind fun (ret, str) =>
      (getArgTypes (types.length + 1) str).map fun (args, rest) => some ⟨ret, args, rest⟩

/-- Bit 63 is for the result. A shift on the host takes its count modulo 64. -/
def blkMask (p : ParsedTypes) : BitVec 64 :=
  p.args.zipIdx.foldl (fun mask (ty, i) => if ty.isBlock then mask ||| (1 <<< (i % 64)) else mask)
    (if p.ret.isBlock then 1 <<< 63 else 0)

def ABIFnInfo.markBlocks {R : Type} (mask : BitVec 64) (info : ABIFnInfo R) : ABIFnInfo R :=
  { info with
    rinfo := { info.rinfo with block := info.rinfo.block || mask.getLsbD 63 }
    ainfo := info.ainfo.zipIdx.map fun (a, i) => { a with block := a.block || mask.getLsbD (i % 64) } }

def invalidValue : ℕ := 2 ^ 32 - 1

def prepFnInfos (p : ParsedTypes) (nfixed : ℕ) : Option (ABIFnInfo AReg × ABIFnInfo XReg) := do
  let atypes := p.args.map ParsedType.ffi
  let xx ← myXxFiPrepCif p.ret.ffi atypes
  let aa ← if nfixed ≠ invalidValue then myAaFiPrepCifVar nfixed p.ret.ffi atypes
    else myAaFiPrepCif p.ret.ffi atypes
  pure (aa.markBlocks (blkMask p), xx.markBlocks (blkMask p))

/-- `handle`: the two descriptions, or `none` where it returns false. -/
def handle (types : List Char) (nfixed : ℕ) : Scan (Option (ABIFnInfo AReg × ABIFnInfo XReg)) :=
  (handleTypes types).map fun parsed => parsed.bind fun p => prepFnInfos p nfixed

def getFnInfoFromTypes (types : List Char) : Scan (Option (ABIFnInfo AReg × ABIFnInfo XReg)) :=
  handle types invalidValue

def getVariFnInfoFromTypes (types : List Char) (nfixed : ℕ) :
    Scan (Option (ABIFnInfo AReg × ABIFnInfo XReg)) :=
  handle types nfixed

end Iqemu64
