import Iqemu64.TypesParser

/-!
# The parser of printf format strings

`parseFmtstr` makes a type encoding string out of a format string, one code for each argument. The
fields of a conversion are scanned in turn; if no conversion letter follows, the fields that were
empty so far are tried once more.
-/

namespace Iqemu64
open CString

/-- `arg_type`. -/
inductive ArgType where
  | none | int | uint | double | pointer | char
  deriving DecidableEq, Repr

def ArgType.code : ArgType → Char
  | none => '\x00'
  | int => 'i'
  | uint => 'I'
  | double => 'd'
  | pointer => '*'
  | char => 'c'

def parseParameterField (str : List Char) : ℕ × List Char :=
  if (str.head?.map Char.isDigit).getD false ∧ (strtol str).2.head? = some '$' then
    (toUnsigned (strtol str).1, (strtol str).2.tail)
  else (0, str)

/-- A loop over the characters of a set. `strchr` finds the terminating zero in every set, so the
loop runs over the end of the string. -/
def skipSet (set : List Char) : List Char → Bool → Scan (Bool × List Char)
  | [], _ => .error .overread
  | c :: str, parsed => if c ∈ set then skipSet set str true else .ok (parsed, c :: str)

def parseFlagsField (str : List Char) : Scan (Bool × List Char) :=
  skipSet ['-', '+', ' ', '0', '\x27', '#'] str false

def parseLengthField (str : List Char) : Scan (Bool × List Char) :=
  skipSet ['h', 'l', 'L', 'z', 'j', 't', 'I', '3', '2', '6', '4', 'q'] str false

structure AmountField where
  asterisk : Bool
  posEll : ℕ
  str : List Char

/-- The text behind the asterisk of a width or a precision. A number that no `$` follows counts as
position but is not skipped. -/
def parseAsterisk (numbered : Bool) (str : List Char) : AmountField :=
  if numbered then
    { asterisk := true
      posEll := toUnsigned (strtol str).1
      str := if (strtol str).2.head? = some '$' then (strtol str).2.tail else str }
  else { asterisk := true, posEll := 0, str }

def parseDigits (str : List Char) : AmountField :=
  { asterisk := false, posEll := 0, str := str.dropWhile Char.isDigit }

def parseWidthField (numbered : Bool) : List Char → Bool × AmountField
  | '*' :: str => (true, parseAsterisk numbered str)
  | str => ((str.head?.map Char.isDigit).getD false, parseDigits str)

def parsePrecisionField (numbered : Bool) : List Char → Bool × AmountField
  | '.' :: '*' :: str => (true, parseAsterisk numbered str)
  | '.' :: str => (true, parseDigits str)
  | str => (false, { asterisk := false, posEll := 0, str })

def typeOfLetter : Char → Option ArgType
  | '%' => some .none
  | 'd' | 'i' => some .int
  | 'u' | 'x' | 'X' | 'o' => some .uint
  | 'f' | 'F' | 'e' | 'E' | 'g' | 'G' | 'a' | 'A' => some .double
  | 's' | 'S' | '@' | 'p' | 'n' => some .pointer
  | 'c' | 'C' => some .char
  | _ => none

/-- `parse_type_field`: the type and the text behind the letter, or `none` if there is no such
letter. Annotations in braces are skipped. -/
def parseTypeField : Bool → List Char → Scan (Option (ArgType × List Char))
  | true, [] => .error .overread
  | true, c :: str => parseTypeField (c ≠ '}') str
  | false, [] => .ok none
  | false, c :: str =>
    if c = '{' then parseTypeField true str
    else .ok ((typeOfLetter c).map fun ty => (ty, str))

def moveBehindPercent (str : List Char) : List Char := (str.dropWhile (· ≠ '%')).tail

def typesSize (types : List Char) : ℕ := (types.takeWhile (· ≠ '\x00')).length % 2 ^ 32

def padTypes (types : List Char) (idx : ℕ) : List Char :=
  if typesSize types < (idx + 1) % 2 ^ 32 then
    types ++ List.replicate ((idx + 1) % 2 ^ 32 - typesSize types) ArgType.pointer.code
  else types

/-- A write into the buffer; one outside of it is not defined. -/
def setType (types : List Char) (idx : ℕ) (ty : ArgType) : Scan (List Char) :=
  if idx < types.length then .ok (types.set idx ty.code) else .error .overread

structure FmtState where
  types : List Char
  str : List Char
  newRound : Bool := true
  flagsParsed : Bool := false
  widthParsed : Bool := false
  precisionParsed : Bool := false
  lengthParsed : Bool := false
  posInEllipsis : ℕ := 0
  idxInTypes : ℕ := 0
  widthIdxInTypes : ℕ := 0
  precisionIdxInTypes : ℕ := 0
  needWidth : Bool := false
  needPrecision : Bool := false

namespace FmtState

variable (nfixed : ℕ) (st : FmtState)

def startRound (str : List Char) : FmtState :=
  let (pos, rest) := parseParameterField str
  let idx := (nfixed + pos) % 2 ^ 32
  { st with
    types := padTypes st.types idx, str := rest, flagsParsed := false, widthParsed := false,
    precisionParsed := false, lengthParsed := false, posInEllipsis := pos, idxInTypes := idx }

def flagsField : Scan FmtState :=
  if st.flagsParsed then .ok st
  else (parseFlagsField st.str).map fun (parsed, str) => { st with flagsParsed := parsed, str }

def widthField : FmtState :=
  if st.widthParsed then st
  else
    let (parsed, field) := parseWidthField (st.posInEllipsis ≠ 0) st.str
    let idx := (nfixed + field.posEll) % 2 ^ 32
    { st with
      types := padTypes st.types idx, str := field.str, widthParsed := parsed,
      widthIdxInTypes := idx, needWidth := field.asterisk }

def precisionField : FmtState :=
  if st.precisionParsed then st
  else
    let (parsed, field) := parsePrecisionField (st.posInEllipsis ≠ 0) st.str
    let idx := (nfixed + field.posEll) % 2 ^ 32
    { st with
      types := padTypes st.types idx, str := field.str, precisionParsed := parsed,
      precisionIdxInTypes := idx, needPrecision := field.asterisk }

def lengthField : Scan FmtState :=
  if st.lengthParsed then .ok st
  else (parseLengthField st.str).map fun (parsed, str) => { st with lengthParsed := parsed, str }

def allParsed : Bool :=
  st.flagsParsed && st.widthParsed && st.precisionParsed && st.lengthParsed

def storeTypes (ty : ArgType) : Scan (List Char) :=
  if st.posInEllipsis ≠ 0 then
    (setType st.types st.idxInTypes ty).bind fun types =>
      (if st.needWidth then setType types st.widthIdxInTypes .int else .ok types).bind fun types =>
        if st.needPrecision then setType types st.precisionIdxInTypes .int else .ok types
  else
    .ok (st.types ++ (if st.needWidth then [ArgType.int.code] else []) ++
      (if st.needPrecision then [ArgType.int.code] else []) ++
      (if ty ≠ .none then [ty.code] else []))

def finishTurn : Scan FmtState :=
  (parseTypeField false st.str).bind fun
    | some (ty, str) => (st.storeTypes ty).map fun types => { st with types, str, newRound := true }
    | none => if st.allParsed then .error .abort else .ok { st with newRound := false }

def scanFields : Scan FmtState :=
  st.flagsField.bind fun st =>
    ((st.widthField nfixed).precisionField nfixed).lengthField.bind finishTurn

def fmtLoop : ℕ → FmtState → Scan (List Char)
  | 0, _ => .error .unfinished
  | fuel + 1, st =>
    if st.newRound then
      let str := moveBehindPercent st.str
      if str = [] then .ok st.types
      else ((st.startRound nfixed str).scanFields nfixed).bind (fmtLoop fuel)
    else (st.scanFields nfixed).bind (fmtLoop fuel)

end FmtState

/-- The type string that `parse_fmtstr` makes, up to its first zero. -/
def fmtstrTypes (fuel nfixed : ℕ) (str : List Char) : Scan (List Char) :=
  (FmtState.fmtLoop nfixed fuel
    { types := List.replicate (nfixed + 1) ArgType.pointer.code, str }).map fun types =>
      types.takeWhile (· ≠ '\x00')

/-- `parse_fmtstr`. -/
def parseFmtstr (fuel nfixed : ℕ) (str : List Char) :
    Scan (Option (ABIFnInfo AReg × ABIFnInfo XReg)) :=
  (fmtstrTypes fuel nfixed str).bind fun types => getVariFnInfoFromTypes types nfixed

end Iqemu64
