import Iqemu64.TypesParser

/-!
# Objective-C types and their encodings

`ObjcType` is the grammar of type encodings without unions, `print` writes an encoding, and `size`,
`alignment` and `leaves` are the layout that C gives a type. A `TypeSignature` is printed as in the
method lists of the runtime, each type followed by its frame offset.
-/

namespace Iqemu64
open CString

inductive TypeCode where
  | char | int | short | long | longLong | uchar | uint | ushort | ulong | ulongLong | float | double
  | bool | void | charPtr | classObject | selector
  deriving DecidableEq, Repr

namespace TypeCode

def letter : TypeCode → Char
  | char => 'c'
  | int => 'i'
  | short => 's'
  | long => 'l'
  | longLong => 'q'
  | uchar => 'C'
  | uint => 'I'
  | ushort => 'S'
  | ulong => 'L'
  | ulongLong => 'Q'
  | float => 'f'
  | double => 'd'
  | bool => 'B'
  | void => 'v'
  | charPtr => '*'
  | classObject => '#'
  | selector => ':'

def leaf : TypeCode → FfiTypeTag
  | char => .sint8
  | int | long => .sint32
  | short => .sint16
  | longLong => .sint64
  | uchar | bool => .uint8
  | uint | ulong => .uint32
  | ushort => .uint16
  | ulongLong => .uint64
  | float => .float
  | double => .double
  | void => .void
  | charPtr | classObject | selector => .pointer

def size : TypeCode → ℕ
  | char | uchar | bool | void => 1
  | short | ushort => 2
  | int | long | uint | ulong | float => 4
  | longLong | ulongLong | double | charPtr | classObject | selector => 8

end TypeCode

inductive Qualifier where
  | const | input | inout | out | bycopy | byref | oneway
  deriving DecidableEq, Repr

def Qualifier.letter : Qualifier → Char
  | const => 'r'
  | input => 'n'
  | inout => 'N'
  | out => 'o'
  | bycopy => 'O'
  | byref => 'R'
  | oneway => 'V'

def TypeName (terminator : Char) : Type :=
  { w : List Char // ∀ c ∈ w, c ≠ terminator ∧ c ∉ ['{', '}', '[', ']', '\x00'] }

inductive ObjcType where
  | code (c : TypeCode)
  | pointer (pointee : ObjcType)
  | qualified (q : Qualifier) (t : ObjcType)
  | object (className : Option (TypeName '"'))
  | block
  | array (count : ℕ) (element : ObjcType)
  | struct (name : TypeName '=') (members : List ObjcType)

namespace ObjcType

/-- Induction with the hypothesis for all members of a struct. -/
@[elab_as_elim]
theorem induct {P : ObjcType → Prop} (code : ∀ c, P (.code c)) (pointer : ∀ p, P p → P (.pointer p))
    (qualified : ∀ q t, P t → P (.qualified q t)) (object : ∀ name, P (.object name))
    (block : P .block) (array : ∀ n e, P e → P (.array n e))
    (struct : ∀ name ms, (∀ m ∈ ms, P m) → P (.struct name ms)) (t : ObjcType) : P t :=
  @ObjcType.rec P (fun ms => ∀ m ∈ ms, P m) code pointer qualified object block array struct
    (List.forall_mem_nil P) (fun _ _ hm hms => List.forall_mem_cons.mpr ⟨hm, hms⟩) t

mutual

def print : ObjcType → List Char
  | code c => [c.letter]
  | pointer p => '^' :: p.print
  | qualified q t => q.letter :: t.print
  | object none => ['@']
  | object (some name) => '@' :: '"' :: (name.1 ++ ['"'])
  | block => ['@', '?']
  | array n e => '[' :: (decimal n ++ (e.print ++ [']']))
  | struct name ms => '{' :: (name.1 ++ '=' :: (printAll ms ++ ['}']))

def printAll : List ObjcType → List Char
  | [] => []
  | m :: ms => m.print ++ printAll ms

end

mutual

def alignment : ObjcType → ℕ
  | code c => c.size
  | pointer _ | object _ | block => 8
  | qualified _ t => t.alignment
  | array _ e => e.alignment
  | struct _ ms => maxAlignment ms

def maxAlignment : List ObjcType → ℕ
  | [] => 1
  | m :: ms => max m.alignment (maxAlignment ms)

end

def roundUp (off a : ℕ) : ℕ := (off + (a - 1)) / a * a

mutual

def size : ObjcType → ℕ
  | code c => c.size
  | pointer _ | object _ | block => 8
  | qualified _ t => t.size
  | array n e => n * e.size
  | struct _ ms => roundUp (membersEnd ms 0) (maxAlignment ms)

def membersEnd : List ObjcType → ℕ → ℕ
  | [], off => off
  | m :: ms, off => membersEnd ms (roundUp off m.alignment + m.size)

end

mutual

def leaves : ObjcType → List FfiTypeTag
  | code c => [c.leaf]
  | pointer _ | object _ | block => [.pointer]
  | qualified _ t => t.leaves
  | array n e => (List.replicate n e.leaves).flatten
  | struct _ ms => leavesAll ms

def leavesAll : List ObjcType → List FfiTypeTag
  | [] => []
  | m :: ms => m.leaves ++ leavesAll ms

end

def decay : ObjcType → ObjcType
  | qualified q t => qualified q t.decay
  | array _ e => pointer e
  | t => t

mutual

def depth (openBrace : Char) : ObjcType → ℕ
  | code _ | object _ | block => 0
  | pointer t | qualified _ t => t.depth openBrace
  | array _ e => e.depth openBrace + if openBrace = '[' then 1 else 0
  | struct _ ms => depthAll openBrace ms + if openBrace = '{' then 1 else 0

def depthAll (openBrace : Char) : List ObjcType → ℕ
  | [] => 0
  | m :: ms => max (m.depth openBrace) (depthAll openBrace ms)

end

def Nested (t : ObjcType) : Prop := t.depth '{' < 256 ∧ t.depth '[' < 256

mutual

def Filled : ObjcType → Prop
  | code _ | pointer _ | object _ | block => True
  | qualified _ t => t.Filled
  | array n e => 0 < n ∧ n + 1 < 2 ^ 32 ∧ e.Filled
  | struct _ ms => ms ≠ [] ∧ FilledAll ms

def FilledAll : List ObjcType → Prop
  | [] => True
  | m :: ms => m.Filled ∧ FilledAll ms

end

mutual

def pointees : ObjcType → List Char → List (ObjcType × List Char)
  | code _, _ | object _, _ | block, _ => []
  | pointer p, rest => (p, rest) :: p.pointees rest
  | qualified _ t, rest => t.pointees rest
  | array _ e, rest => e.pointees (']' :: rest)
  | struct _ ms, rest => pointeesAll ms ('}' :: rest)

def pointeesAll : List ObjcType → List Char → List (ObjcType × List Char)
  | [], _ => []
  | m :: ms, rest => m.pointees (printAll ms ++ rest) ++ pointeesAll ms rest

end

end ObjcType

mutual

def FfiType.leaves : FfiType → List FfiTypeTag
  | .mk _ _ type elements => if type = .struct then leavesAll elements else [type]

def FfiType.leavesAll : List FfiType → List FfiTypeTag
  | [] => []
  | e :: es => e.leaves ++ leavesAll es

end

def HasLayout (ffi : FfiType) (t : ObjcType) : Prop :=
  ∃ desc, initializeType ffi = some desc ∧ desc.leaves = t.leaves ∧ desc.size = t.size ∧
    desc.alignment = t.alignment

structure OffsetType where
  type : ObjcType
  offset : List Char
  isNumber : IsNumber offset

structure TypeSignature where
  ret : OffsetType
  args : List OffsetType

namespace TypeSignature

def printArgs : List OffsetType → List Char
  | [] => []
  | a :: as => a.type.print ++ (a.offset ++ printArgs as)

def print (σ : TypeSignature) : List Char := printArgs (σ.ret :: σ.args)

def pointeesArgs : List OffsetType → List (ObjcType × List Char)
  | [] => []
  | a :: as => a.type.pointees (a.offset ++ printArgs as) ++ pointeesArgs as

def pointees (σ : TypeSignature) : List (ObjcType × List Char) := pointeesArgs (σ.ret :: σ.args)

/-- The parser takes the printed signature to its end, builds the types that were printed, and moves
over every pointee. -/
def RoundTrip (σ : TypeSignature) : Prop :=
  (∃ p, handleTypes σ.print = .ok (some p) ∧ p.rest = [] ∧ HasLayout p.ret.ffi σ.ret.type.decay ∧
      List.Forall₂ (fun ty a => HasLayout ty.ffi a.type.decay) p.args σ.args) ∧
    ∀ q ∈ σ.pointees, moveFwdAType (q.1.print ++ q.2) = .ok q.2

end TypeSignature

end Iqemu64
