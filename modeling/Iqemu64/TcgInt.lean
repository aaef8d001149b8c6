import Iqemu64.TcgExec
import Mathlib.Tactic

/-!
# The integer ops

The values of integer temps are 64-bit words, of which a 32-bit temp shows the low half. An op of a
type computes with words of that width. Where the reference of the ops leaves a result undefined
(division by zero, a byte swap with bits above the swapped bytes) one result is fixed here.

Host memory, guest memory and the helpers are an `Env`.
-/

namespace Iqemu64
open BitVec

namespace Tcg

abbrev Word := BitVec 64

def Ty.bits : Ty → ℕ
  | i32 => 32
  | i64 => 64

def Ty.zext (w : Ty) (v : Word) : Word := (v.setWidth w.bits).setWidth 64

def Ty.lift₁ (w : Ty) (f : BitVec w.bits → BitVec w.bits) (a : Word) : Word :=
  (f (a.setWidth w.bits)).setWidth 64

def Ty.lift₂ (w : Ty) (f : BitVec w.bits → BitVec w.bits → BitVec w.bits) (a b : Word) : Word :=
  (f (a.setWidth w.bits) (b.setWidth w.bits)).setWidth 64

namespace Cond

def eval {n : ℕ} (x y : BitVec n) : Cond → Bool
  | eq => x = y
  | ne => x ≠ y
  | lt => x.slt y
  | ge => y.sle x
  | le => x.sle y
  | gt => y.slt x
  | ltu => x.ult y
  | geu => y.ule x
  | leu => x.ule y
  | gtu => y.ult x

end Cond

def bswap {n : ℕ} : ℕ → BitVec n → BitVec n
  | 0, _ => 0
  | k + 1, x => ((x &&& 0xff) <<< (8 * k)) ||| bswap k (x >>> 8)

def sext {n : ℕ} (k : ℕ) (x : BitVec n) : BitVec n := (x.setWidth k).signExtend n

def uext {n : ℕ} (k : ℕ) (x : BitVec n) : BitVec n := (x.setWidth k).setWidth n

namespace UnOp

def eval : UnOp → Word → Word
  | not w => w.lift₁ (~~~ ·)
  | neg w => w.lift₁ (- ·)
  | ext8s w => w.lift₁ (sext 8)
  | ext8u w => w.lift₁ (uext 8)
  | ext16s w => w.lift₁ (sext 16)
  | ext16u w => w.lift₁ (uext 16)
  | ctpop w => w.lift₁ cpop
  | bswap16 w => w.lift₁ (bswap 2)
  | bswap32 w => w.lift₁ (bswap 4)
  | bswap64 => bswap 8
  | ext32s => sext 32
  | ext32u => uext 32
  | extI32I64 => sext 32
  | extuI32I64 => uext 32
  | extrlI64I32 => uext 32
  | extrhI64I32 => fun a => a >>> 32

end UnOp

def orOne {n : ℕ} (y : BitVec n) : BitVec n := if y = 0 then 1 else y

namespace BinOp

def eval {n : ℕ} (x y : BitVec n) : BinOp → BitVec n
  | add => x + y
  | sub => x - y
  | mul => x * y
  | div => x.sdiv (orOne y)
  | divu => x / orOne y
  | rem => x.srem (orOne y)
  | remu => x % orOne y
  | and => x &&& y
  | or => x ||| y
  | xor => x ^^^ y
  | shl => x <<< y.toNat
  | shr => x >>> y.toNat
  | sar => x.sshiftRight y.toNat
  | rotl => x.rotateLeft y.toNat
  | rotr => x.rotateRight y.toNat
  | andc => x &&& ~~~y
  | orc => x ||| ~~~y
  | eqv => ~~~(x ^^^ y)
  | nand => ~~~(x &&& y)
  | nor => ~~~(x ||| y)
  | clz => if x = 0 then y else x.clz
  | ctz => if x = 0 then y else x.ctz
  | muluh => BitVec.ofNat n (x.toNat * y.toNat / 2 ^ n)
  | mulsh => BitVec.ofInt n (x.toInt * y.toInt / 2 ^ n)

end BinOp

def deposit {n : ℕ} (pos len : ℕ) (x y : BitVec n) : BitVec n :=
  let mask : BitVec n := (allOnes len).setWidth n <<< pos
  (x &&& ~~~mask) ||| ((y <<< pos) &&& mask)

def extract {n : ℕ} (pos len : ℕ) (x : BitVec n) : BitVec n := uext len (x >>> pos)

def sextract {n : ℕ} (pos len : ℕ) (x : BitVec n) : BitVec n := sext len (x >>> pos)

def extract2 {n : ℕ} (pos : ℕ) (x y : BitVec n) : BitVec n := (x >>> pos) ||| (y <<< (n - pos))

def halves (w : Ty) (v : BitVec (w.bits + w.bits)) : List Word :=
  [(v.setWidth w.bits).setWidth 64, ((v >>> w.bits).setWidth w.bits).setWidth 64]

def double (w : Ty) (lo hi : Word) : BitVec (w.bits + w.bits) := hi.setWidth w.bits ++ lo.setWidth w.bits

def boolWord (b : Bool) : Word := if b then 1 else 0

def compute : Opcode → List Const → List Word → List Word
  | .mov w, _, [a] => [w.zext a]
  | .movi w, [.num v], [] => [w.zext v]
  | .un o, _, [a] => [o.eval a]
  | .bin o w, _, [a, b] => [w.lift₂ (BinOp.eval · · o) a b]
  | .setcond w, [.cond c], [a, b] => [boolWord (c.eval (a.setWidth w.bits) (b.setWidth w.bits))]
  | .movcond w, [.cond c], [a, b, x, y] =>
    [w.zext (if c.eval (a.setWidth w.bits) (b.setWidth w.bits) then x else y)]
  | .deposit w, [.num pos, .num len], [a, b] => [w.lift₂ (deposit pos.toNat len.toNat) a b]
  | .extract w, [.num pos, .num len], [a] => [w.lift₁ (extract pos.toNat len.toNat) a]
  | .sextract w, [.num pos, .num len], [a] => [w.lift₁ (sextract pos.toNat len.toNat) a]
  | .extract2 w, [.num pos], [a, b] => [w.lift₂ (extract2 pos.toNat) a b]
  | .add2 w, _, [al, ah, bl, bh] => halves w (double w al ah + double w bl bh)
  | .sub2 w, _, [al, ah, bl, bh] => halves w (double w al ah - double w bl bh)
  | .mulu2 w, _, [a, b] =>
    [w.lift₂ (BinOp.eval · · .mul) a b, w.lift₂ (BinOp.eval · · .muluh) a b]
  | .muls2 w, _, [a, b] =>
    [w.lift₂ (BinOp.eval · · .mul) a b, w.lift₂ (BinOp.eval · · .mulsh) a b]
  | .div2 w, _, [lo, hi, b] =>
    let d := (b.setWidth w.bits).signExtend (w.bits + w.bits)
    [(((double w lo hi).sdiv (orOne d)).setWidth w.bits).setWidth 64,
      (((double w lo hi).srem (orOne d)).setWidth w.bits).setWidth 64]
  | .divu2 w, _, [lo, hi, b] =>
    let d := double w b 0
    [((double w lo hi / orOne d).setWidth w.bits).setWidth 64,
      ((double w lo hi % orOne d).setWidth w.bits).setWidth 64]
  | .setcond2, [.cond c], [al, ah, bl, bh] => [boolWord (c.eval (double .i32 al ah) (double .i32 bl bh))]
  | _, _, _ => []

def test : Opcode → List Const → List Word → Bool
  | .brcond w, .cond c :: _, [a, b] => c.eval (a.setWidth w.bits) (b.setWidth w.bits)
  | .brcond2, .cond c :: _, [al, ah, bl, bh] => c.eval (double .i32 al ah) (double .i32 bl bh)
  | _, _, _ => false

structure Env (T : TempTable) (World : Type) where
  hostRead : World → Word → (n : ℕ) → BitVec (8 * n)
  hostWrite : World → Word → (n : ℕ) → BitVec (8 * n) → World
  guestRead : World → (oi : Word) → Word → Except World (Word × World)
  guestWrite : World → (oi : Word) → Word → Word → Except World World
  linked : List Const → World → Bool
  helper : List Const → BitVec 64 → List Word → Globals T Word → World →
    Except World (List Word × Globals T Word × World)
  noRead : ∀ f flags args w, noReadGlobals flags = true →
    ∃ r w', ∀ g, helper f flags args g w = .ok (r, g, w')
  noWrite : ∀ f flags args g w r g' w', noWriteGlobals flags = true →
    helper f flags args g w = .ok (r, g', w') → g' = g
  noEffect : ∀ f flags args g w, noSideEffects flags = true →
    ∃ r, helper f flags args g w = .ok (r, g, w)

section Env

variable {T : TempTable} {World : Type} (E : Env T World)

def LdOp.eval (world : World) (addr : Word) : LdOp → Word
  | ld8u _ => (E.hostRead world addr 1).setWidth 64
  | ld8s w => w.zext ((E.hostRead world addr 1).signExtend 64)
  | ld16u _ => (E.hostRead world addr 2).setWidth 64
  | ld16s w => w.zext ((E.hostRead world addr 2).signExtend 64)
  | ld32u => (E.hostRead world addr 4).setWidth 64
  | ld32s => (E.hostRead world addr 4).signExtend 64
  | ld .i32 => (E.hostRead world addr 4).setWidth 64
  | ld .i64 => (E.hostRead world addr 8).setWidth 64

def StOp.bytes : StOp → ℕ
  | st8 _ => 1
  | st16 _ => 2
  | st32 => 4
  | st .i32 => 4
  | st .i64 => 8

def Env.load : Opcode → List Const → List Word → World → List Word
  | .ld o, [.num off], [base], world => [o.eval E world (base + off)]
  | _, _, _, _ => []

def Env.store : Opcode → List Const → List Word → World → World
  | .st o, [.num off], [v, base], world => E.hostWrite world (base + off) o.bytes (v.setWidth _)
  | _, _, _, world => world

def memopBits (oi : Word) : ℕ := 8 <<< ((oi >>> 4) &&& 3).toNat

def memopSigned (oi : Word) : Bool := (oi >>> 4).getLsbD 2

def guestValue (w : Ty) (oi v : Word) : Word :=
  if memopSigned oi then w.zext (sext (memopBits oi) v) else w.zext (uext (memopBits oi) v)

def Env.guest : Opcode → List Const → List Word → World → Except World (List Word × World)
  | .qemuLd w, [.num oi], [addr], world =>
    match E.guestRead world oi addr with
    | .ok (v, world') => .ok ([guestValue w oi v], world')
    | .error world' => .error world'
  | .qemuSt _, [.num oi], [v, addr], world =>
    match E.guestWrite world oi addr (uext (memopBits oi) v) with
    | .ok world' => .ok ([], world')
    | .error world' => .error world'
  | _, _, _, world => .ok ([], world)

end Env

theorem Ty.zext_zext (w : Ty) (v : Word) : w.zext (w.zext v) = w.zext v := by
  cases w
  · simp [Ty.zext, Ty.bits]
  · simp [Ty.zext, Ty.bits]

theorem setWidth_double (w : Ty) (lo hi : Word) :
    (double w lo hi).setWidth w.bits = lo.setWidth w.bits := by
  ext i hi'
  simp [double, getLsbD_append, hi']

theorem headD_halves_add (w : Ty) (al ah bl bh : Word) :
    (halves w (double w al ah + double w bl bh)).headD default =
      w.lift₂ (BinOp.eval · · .add) al bl := by
  simp [halves, setWidth_add, setWidth_double, Ty.lift₂, BinOp.eval]

theorem headD_halves_sub (w : Ty) (al ah bl bh : Word) :
    (halves w (double w al ah - double w bl bh)).headD default =
      w.lift₂ (BinOp.eval · · .sub) al bl := by
  simp [halves, sub_eq_add_neg, setWidth_add, setWidth_double,
    Ty.lift₂, BinOp.eval]

def intMeaning {T : TempTable} {World : Type} (ty : Temp → Ty) (E : Env T World) :
    Meaning T Word World where
  view t v := (ty t).zext v
  view_view t v := (ty t).zext_zext v
  compute := compute
  load := E.load
  store := E.store
  guest := E.guest
  test := test
  linked := E.linked
  helper := E.helper
  add2_low w _ a b c d := headD_halves_add w a b c d
  sub2_low w _ a b c d := headD_halves_sub w a b c d
  mulu2_low _ _ _ _ := rfl
  muls2_low _ _ _ _ := rfl
  mulu2_high _ _ _ _ := rfl
  muls2_high _ _ _ _ := rfl
  noRead := E.noRead
  noWrite := E.noWrite
  noEffect := E.noEffect

end Tcg

end Iqemu64
