import Iqemu64.ByteMemory

/-!
# Code emission into the translation buffer

Trampolines and translation blocks are emitted at `code_gen_ptr` by one context. An instruction may
refer to a word of the constant pool, whose place is known only when the unit is finished, so the
context keeps a linked list of the references. Its cells come from an allocator that
`tcg_func_start` starts over, and `tcg_gen_code` empties the list while `code_gen_start` does not.

The loops over the list follow pointers that earlier units left behind, so they take fuel; `none` is
a loop that has not ended. The cells of the list are addressed as whole cells.
-/

namespace Iqemu64
open ByteMemory

structure PoolLabel where
  next : Option ℕ
  label : ℕ
  data : BitVec 64

structure TcgContext where
  mem : Mem
  emitted : ℕ
  codeGenPtr : ℕ
  codePtr : ℕ
  codeGenHighwater : ℕ
  poolLabels : Option ℕ
  pool : ℕ → PoolLabel
  poolCur : ℕ

def roundUp (n d : ℕ) : ℕ := (n + d - 1) / d * d

def leBytes (n v : ℕ) : List UInt8 := (List.range n).map (byteAt v)

@[simp]
theorem length_leBytes (n v : ℕ) : (leBytes n v).length = n := by simp [leBytes]

namespace TcgContext

def store (s : TcgContext) (a : ℕ) (bs : List UInt8) : TcgContext :=
  if bs.isEmpty then s
  else { s with
    mem := s.mem.write a bs.length (fun k => bs.getD k 0)
    emitted := max s.emitted (a + bs.length) }

def tcgOut (s : TcgContext) (bs : List UInt8) : TcgContext :=
  { s.store s.codePtr bs with codePtr := s.codePtr + bs.length }

end TcgContext

def memcmpGe : ℕ → (ℕ → UInt8) → (ℕ → UInt8) → Bool
  | 0, _, _ => true
  | n + 1, f, g =>
    if f 0 = g 0 then memcmpGe n (fun k => f (k + 1)) (fun k => g (k + 1)) else g 0 < f 0

def poolPosition (pool : ℕ → PoolLabel) (d : BitVec 64) :
    ℕ → Option ℕ → Option ℕ → Option (Option ℕ × Option ℕ)
  | 0, _, _ => none
  | _ + 1, prev, none => some (prev, none)
  | fuel + 1, prev, some i =>
    if memcmpGe 8 (byteAt d.toNat) (byteAt (pool i).data.toNat) then some (prev, some i)
    else poolPosition pool d fuel (some i) (pool i).next

def poolLabelSize : ℕ := 40

namespace TcgContext

def newPoolAlloc (s : TcgContext) (d : BitVec 64) (label : ℕ) : TcgContext :=
  { s with
    pool := Function.update s.pool s.poolCur ⟨(s.pool s.poolCur).next, label, d⟩
    poolCur := s.poolCur + poolLabelSize }

def linkAfter (s : TcgContext) (n : ℕ) (prev next : Option ℕ) : TcgContext :=
  let pool := Function.update s.pool n { s.pool n with next := next }
  match prev with
  | none => { s with pool := pool, poolLabels := some n }
  | some q => { s with pool := Function.update pool q { pool q with next := some n } }

def newPoolLabel (fuel : ℕ) (s : TcgContext) (d : BitVec 64) (label : ℕ) : Option TcgContext :=
  let t := s.newPoolAlloc d label
  (poolPosition t.pool d fuel none t.poolLabels).map fun at_ => t.linkAfter s.poolCur at_.1 at_.2

end TcgContext

inductive EmitOp where
  | bytes (bs : List UInt8)
  | movi (r : Fin 8) (arg : BitVec 64)
  | pooled (bs : List UInt8) (d : BitVec 64)
  | branch (call : Bool) (dest : BitVec 64)
  | malloc (size : ℕ)

namespace EmitOp

def size : EmitOp → ℕ
  | .bytes bs => bs.length
  | .movi _ _ => 10
  | .pooled bs _ => bs.length + 4
  | .branch _ _ => 6
  | .malloc _ => 0

def total (ops : List EmitOp) : ℕ := (ops.map size).sum

@[simp]
theorem total_cons (op : EmitOp) (ops : List EmitOp) : total (op :: ops) = op.size + total ops := rfl

end EmitOp

def fitsInt32 (z : ℤ) : Bool := -2 ^ 31 ≤ z ∧ z < 2 ^ 31

def moviBytes (codePtr : ℕ) (r : Fin 8) (arg : BitVec 64) : List UInt8 :=
  let reg : UInt8 := UInt8.ofNat r
  let diff : ℤ := (arg.toNat : ℤ) - (codePtr + 7)
  if arg = 0 then [0x45, 0x33, 0xc0 + 8 * reg + reg]
  else if arg.toNat < 2 ^ 32 then [0x41, 0xb8 + reg] ++ leBytes 4 arg.toNat
  else if fitsInt32 arg.toInt then [0x49, 0xc7, 0xc0 + reg] ++ leBytes 4 arg.toNat
  else if fitsInt32 diff then [0x4c, 0x8d, 8 * reg + 5] ++ leBytes 4 (BitVec.ofInt 32 diff).toNat
  else [0x49, 0xb8 + reg] ++ leBytes 8 arg.toNat

namespace TcgContext

def tcgOutBranch (fuel : ℕ) (s : TcgContext) (call : Bool) (dest : BitVec 64) :
    Option TcgContext :=
  let disp : ℤ := (dest.toNat : ℤ) - s.codePtr - 5
  if fitsInt32 disp then
    some (s.tcgOut ((if call then 0xe8 else 0xe9) :: leBytes 4 (BitVec.ofInt 32 disp).toNat))
  else
    let s := s.tcgOut [0xff, if call then 0x15 else 0x25]
    (s.newPoolLabel fuel dest s.codePtr).map fun s => s.tcgOut [0, 0, 0, 0]

def emitOp (fuel : ℕ) (s : TcgContext) : EmitOp → Option TcgContext
  | .bytes bs => some (s.tcgOut bs)
  | .movi r arg => some (s.tcgOut (moviBytes s.codePtr r arg))
  | .pooled bs d =>
    let s := s.tcgOut (bs ++ [0, 0, 0, 0])
    s.newPoolLabel fuel d (s.codePtr - 4)
  | .branch call dest => s.tcgOutBranch fuel call dest
  | .malloc size => some { s with poolCur := s.poolCur + size }

def emitOps (fuel : ℕ) : TcgContext → List EmitOp → Option TcgContext
  | s, [] => some s
  | s, op :: ops => (s.emitOp fuel op).bind fun s => s.emitOps fuel ops

end TcgContext

inductive GenResult where
  | ok | overflow | tooLarge
  deriving DecidableEq

namespace TcgContext

def outPoolWord (s : TcgContext) (l : Option (BitVec 64)) (a : ℕ) (d : BitVec 64) :
    TcgContext × ℕ :=
  if l = some d then (s, a) else (s.store a (leBytes 8 d.toNat), a + 8)

def outPoolWords : ℕ → TcgContext → Option ℕ → Option (BitVec 64) → ℕ →
    Option (GenResult × TcgContext)
  | 0, _, _, _, _ => none
  | _ + 1, s, none, _, a => some (.ok, { s with codePtr := a })
  | fuel + 1, s, some p, l, a =>
    let cell := s.pool p
    if l ≠ some cell.data ∧ s.codeGenHighwater < a then some (.overflow, s)
    else
      let (s, a) := s.outPoolWord l a cell.data
      -- `patch_reloc` with `R_386_PC32` and the addend -4
      let value : ℤ := (a : ℤ) - 8 - 4 - cell.label
      if fitsInt32 value then
        (s.store cell.label (leBytes 4 (BitVec.ofInt 32 value).toNat)).outPoolWords fuel cell.next
          (some cell.data) a
      else some (.tooLarge, s)

def tcgOutPoolFinalize (fuel : ℕ) (s : TcgContext) : Option (GenResult × TcgContext) :=
  match s.poolLabels with
  | none => some (.ok, s)
  | some p =>
    let a := roundUp s.codePtr 8
    (s.store s.codePtr (List.replicate (a - s.codePtr) 0x90)).outPoolWords fuel (some p) none a

def poolBase : ℕ := 0

def codeGenStart (s : TcgContext) : TcgContext :=
  { s with poolCur := poolBase, codePtr := s.codeGenPtr }

/-- A result other than `ok` is the call of `abort`. -/
def codeGenFinalize (fuel : ℕ) (s : TcgContext) : Option (GenResult × TcgContext) :=
  (s.tcgOutPoolFinalize fuel).map fun
    | (.ok, s) => (.ok, { s with codeGenPtr := roundUp s.codePtr 16 })
    | (r, s) => (r, s)

def codeGenUnit (fuel : ℕ) (s : TcgContext) (ops : List EmitOp) : Option (GenResult × TcgContext) :=
  (s.codeGenStart.emitOps fuel ops).bind fun s => s.codeGenFinalize fuel

end TcgContext

def tcgHighwater : ℕ := 1024

/-- One attempt to generate the code of a block. The intermediate code leaves the allocator and its
cells in some state; then each operation emits its code, and each guest instruction has an entry of
four numbers in the search data. `tcg_gen_code` looks at the high-water mark only after an operation
and so relies on none being longer than `TCG_HIGHWATER`. -/
structure BlockCode where
  cells : ℕ → PoolLabel
  cur : ℕ
  ops : List (List EmitOp)
  search : List (List UInt8)
  ops_le : ∀ op ∈ ops, EmitOp.total op ≤ tcgHighwater
  search_le : ∀ e ∈ search, e.length ≤ 40

structure Block where
  header : List UInt8
  attempts : List BlockCode
  existing : Bool

namespace TcgContext

def genOps (fuel buf : ℕ) : TcgContext → List (List EmitOp) → Option (GenResult × TcgContext)
  | s, [] => s.tcgOutPoolFinalize fuel
  | s, op :: ops => (s.emitOps fuel op).bind fun s =>
    if s.codeGenHighwater < s.codePtr then some (.overflow, s)
    else if 65535 < s.codePtr - buf then some (.tooLarge, s)
    else s.genOps fuel buf ops

def encodeSearch : TcgContext → List (List UInt8) → GenResult × TcgContext
  | s, [] => (.ok, s)
  | s, e :: es =>
    let s := s.tcgOut e
    if s.codeGenHighwater < s.codePtr then (.overflow, s) else s.encodeSearch es

def genBlockCode (fuel : ℕ) (s : TcgContext) (b : BlockCode) : Option (GenResult × TcgContext) :=
  let s := { s with pool := b.cells, poolCur := b.cur, poolLabels := none, codePtr := s.codeGenPtr }
  (s.genOps fuel s.codeGenPtr b.ops).map fun
    | (.ok, s) => s.encodeSearch b.search
    | (r, s) => (r, s)

def genAttempts (fuel : ℕ) : TcgContext → List BlockCode → Option (GenResult × TcgContext)
  | s, [] => some (.tooLarge, s)
  | s, b :: bs => (s.genBlockCode fuel b).bind fun
    | (.tooLarge, s) => s.genAttempts fuel bs
    | (r, s) => some (r, s)

def qemuIcacheLinesize : ℕ := 64

def tcgTbAlloc (s : TcgContext) (b : Block) : Option ℕ :=
  let tb := roundUp s.codeGenPtr qemuIcacheLinesize
  if s.codeGenHighwater < tb + b.header.length then none else some tb

def tbGenCodeInternal (fuel : ℕ) (s : TcgContext) (b : Block) : Option TcgContext :=
  match s.tcgTbAlloc b with
  | none => some s
  | some tb =>
    let s := { s.store tb b.header with codeGenPtr := tb + b.header.length }
    if b.attempts.isEmpty then
      some { s with codeGenPtr := if b.existing then tb else s.codeGenPtr }
    else (s.genAttempts fuel b.attempts).map fun
      | (.ok, s) => { s with codeGenPtr := if b.existing then tb else roundUp s.codePtr 16 }
      | (_, s) => s

end TcgContext

end Iqemu64
