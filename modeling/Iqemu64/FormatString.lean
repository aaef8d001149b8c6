import Iqemu64.FmtstrParser

/-!
# Format strings of printf

The grammar of the format strings that C and POSIX define, with the arguments that they assign to the
positions of the variable argument list. Positions are either counted or written out in every
conversion.
-/

namespace Iqemu64
open CString

inductive Conversion where
  | d | i | u | x | X | o | f | F | e | E | g | G | a | A | s | S | c | C | p | n | object
  deriving DecidableEq, Repr

namespace Conversion

def letter : Conversion → Char
  | d => 'd' | i => 'i' | u => 'u' | x => 'x' | X => 'X' | o => 'o'
  | f => 'f' | F => 'F' | e => 'e' | E => 'E' | g => 'g' | G => 'G' | a => 'a' | A => 'A'
  | s => 's' | S => 'S' | c => 'c' | C => 'C' | p => 'p' | n => 'n' | object => '@'

def argType : Conversion → ArgType
  | d | i => .int
  | u | x | X | o => .uint
  | f | F | e | E | g | G | a | A => .double
  | s | S | p | n | object => .pointer
  | c | C => .char

end Conversion

inductive LengthModifier where
  | h | hh | l | ll | q | j | z | t | L
  deriving DecidableEq, Repr

def LengthModifier.text : LengthModifier → List Char
  | h => ['h']
  | hh => ['h', 'h']
  | l => ['l']
  | ll => ['l', 'l']
  | q => ['q']
  | j => ['j']
  | z => ['z']
  | t => ['t']
  | L => ['L']

inductive Flag where
  | minus | plus | space | zero | apostrophe | hash
  deriving DecidableEq, Repr

def Flag.letter : Flag → Char
  | minus => '-'
  | plus => '+'
  | space => ' '
  | zero => '0'
  | apostrophe => '\x27'
  | hash => '#'

structure Numbering (P : Type) where
  text : P → List Char
  pos : P → ℕ

def unnumbered : Numbering Unit where
  text _ := []
  pos _ := 0

abbrev Position : Type := { n : ℕ // 0 < n }

def numbered : Numbering Position where
  text p := decimal p.1 ++ ['$']
  pos p := p.1

inductive Amount (P : Type) where
  | digits (ds : List Char) (hds : ∀ c ∈ ds, c.isDigit = true)
  | star (arg : P)

namespace Amount
variable {P : Type}

def text (N : Numbering P) : Amount P → List Char
  | digits ds _ => ds
  | star arg => '*' :: N.text arg

def isStar : Amount P → Bool
  | digits _ _ => false
  | star _ => true

def pos (N : Numbering P) : Amount P → ℕ
  | digits _ _ => 0
  | star arg => N.pos arg

end Amount

structure ConversionSpec (P : Type) where
  arg : P
  flags : List Flag
  width : Amount P
  precision : Option (Amount P)
  length : Option LengthModifier
  conversion : Conversion
  width_head : ∀ ds hds, width = .digits ds hds → ds.head? ≠ some '0'

namespace ConversionSpec
variable {P : Type} (N : Numbering P) (spec : ConversionSpec P)

def precisionText : List Char :=
  match spec.precision with
  | none => []
  | some p => '.' :: p.text N

def lengthText : List Char :=
  match spec.length with
  | none => []
  | some modifier => modifier.text

def lengthOn : List Char := spec.lengthText ++ [spec.conversion.letter]

def precisionOn : List Char := spec.precisionText N ++ spec.lengthOn

def widthOn : List Char := spec.width.text N ++ spec.precisionOn N

def flagsOn : List Char := spec.flags.map Flag.letter ++ spec.widthOn N

def text : List Char := N.text spec.arg ++ spec.flagsOn N

def precisionStar : Bool := (spec.precision.map Amount.isStar).getD false

def precisionPos : ℕ := (spec.precision.map (Amount.pos N)).getD 0

end ConversionSpec

inductive FormatPiece (P : Type) where
  | ordinary (w : List Char) (hw : '%' ∉ w)
  | percent
  | conversion (spec : ConversionSpec P)

namespace FormatPiece
variable {P : Type} (N : Numbering P)

def text : FormatPiece P → List Char
  | ordinary w _ => w
  | percent => ['%', '%']
  | conversion spec => '%' :: spec.text N

def textAll : List (FormatPiece P) → List Char
  | [] => []
  | p :: ps => p.text N ++ textAll ps

end FormatPiece

def ConversionSpec.codes (spec : ConversionSpec Unit) : List ArgType :=
  (if spec.width.isStar then [.int] else []) ++ (if spec.precisionStar then [.int] else []) ++
    [spec.conversion.argType]

def ConversionSpec.refs (spec : ConversionSpec Position) : List (ℕ × ArgType) :=
  (spec.arg.1, spec.conversion.argType) ::
    ((if spec.width.isStar then [(spec.width.pos numbered, .int)] else []) ++
      (if spec.precisionStar then [(spec.precisionPos numbered, .int)] else []))

inductive FormatString where
  | unnumbered (ps : List (FormatPiece Unit))
  | numbered (ps : List (FormatPiece Position))

namespace FormatString

def codes : List (FormatPiece Unit) → List ArgType
  | [] => []
  | .conversion spec :: ps => spec.codes ++ codes ps
  | _ :: ps => codes ps

def refs : List (FormatPiece Position) → List (ℕ × ArgType)
  | [] => []
  | .conversion spec :: ps => spec.refs ++ refs ps
  | _ :: ps => refs ps

def text : FormatString → List Char
  | unnumbered ps => FormatPiece.textAll Iqemu64.unnumbered ps
  | numbered ps => FormatPiece.textAll Iqemu64.numbered ps

def arity : FormatString → ℕ
  | unnumbered ps => (codes ps).length
  | numbered ps => ((refs ps).map Prod.fst).foldr max 0

def Assigns : FormatString → ℕ → ArgType → Prop
  | unnumbered ps, p, ty => 0 < p ∧ (codes ps)[p - 1]? = some ty
  | numbered ps, p, ty =>
    0 < p ∧ p ≤ ((refs ps).map Prod.fst).foldr max 0 ∧ (∀ ty', (p, ty') ∈ refs ps → ty' = ty) ∧
      ((∀ ty', (p, ty') ∉ refs ps) → ty = .pointer)

/-- The parser hands on a pointer for the result, pointers for the fixed arguments, and then the codes
of the variable arguments. -/
def HandsTypes (fmt : FormatString) (nfixed : ℕ) (types : List Char) : Prop :=
  types.length = 1 + nfixed + fmt.arity ∧ (∀ i ≤ nfixed, types[i]? = some ArgType.pointer.code) ∧
    ∀ p ty, fmt.Assigns p ty → types[nfixed + p]? = some ty.code

end FormatString

end Iqemu64
