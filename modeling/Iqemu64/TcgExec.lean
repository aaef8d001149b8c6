import Iqemu64.TcgOps

/-!
# Running a list of ops

What an op computes, loads and stores is left to a `Meaning`, over any type of values; the laws it
carries are that the double-word ops agree with the single-word ones, and what helpers promise by
their call flags. A run goes through the list, with
a jump to a label where a branch is taken, and records what can be seen from outside. `fuel` bounds
the number of jumps taken, so that two lists which take the same jumps can be compared at every bound.

After a basic block the content of temps is destroyed, but that of local temps and globals is kept;
after an op that leaves the translation block, that of local temps is destroyed too. What is found in
a temp then is up to `Fading`.
-/

namespace Iqemu64

namespace Tcg

variable {T : TempTable} {Val World : Type} [Inhabited Val]

abbrev Globals (T : TempTable) (Val : Type) := Fin T.nbGlobals → Val

inductive Kind where
  | nop | discard | label | br | brcond | exitTb | gotoPtr | gotoTb | call | guest | load | store | compute
  deriving DecidableEq

def Opcode.kind : Opcode → Kind
  | mb | insnStart | pluginCbStart | pluginCbEnd => .nop
  | discard => .discard
  | setLabel => .label
  | br => .br
  | brcond _ | brcond2 => .brcond
  | exitTb => .exitTb
  | gotoPtr => .gotoPtr
  | gotoTb => .gotoTb
  | call => .call
  | qemuLd _ | qemuSt _ => .guest
  | ld _ | ldVec | dupmVec => .load
  | st _ | stVec => .store
  | mov _ | movi _ | setcond _ | movcond _ | bin _ _ | un _ | div2 _ | divu2 _ | deposit _ => .compute
  | extract _ | sextract _ | extract2 _ | add2 _ | sub2 _ | mulu2 _ | muls2 _ | setcond2 | vec _ => .compute

inductive Ending where
  | discard (t : Temp)
  | bbEnd
  | bbExit
  deriving DecidableEq

abbrev Fading (Val : Type) := ℕ → Ending → Temp → Val → Val

def Ending.keeps (T : TempTable) (t : Temp) : Ending → Bool
  | discard t' => t ≠ t'
  | bbEnd => T.isGlobal t || T.tempLocal t
  | bbExit => T.isGlobal t

def destroyed (T : TempTable) (junk : ℕ → Temp → Val) : Fading Val :=
  fun n e t v => if e.keeps T t then v else junk n t

/-- The meaning of the ops. A helper or a guest access may leave the block by an exception. -/
structure Meaning (T : TempTable) (Val World : Type) [Inhabited Val] where
  view : Temp → Val → Val
  view_view : ∀ t v, view t (view t v) = view t v
  compute : Opcode → List Const → List Val → List Val
  load : Opcode → List Const → List Val → World → List Val
  store : Opcode → List Const → List Val → World → World
  guest : Opcode → List Const → List Val → World → Except World (List Val × World)
  test : Opcode → List Const → List Val → Bool
  linked : List Const → World → Bool
  helper : List Const → BitVec 64 → List Val → Globals T Val → World →
    Except World (List Val × Globals T Val × World)
  add2_low : ∀ w cs a b c d, (compute (.add2 w) cs [a, b, c, d]).headD default =
    (compute (.bin .add w) cs [a, c]).headD default
  sub2_low : ∀ w cs a b c d, (compute (.sub2 w) cs [a, b, c, d]).headD default =
    (compute (.bin .sub w) cs [a, c]).headD default
  mulu2_low : ∀ w cs a b, (compute (.mulu2 w) cs [a, b]).headD default =
    (compute (.bin .mul w) cs [a, b]).headD default
  muls2_low : ∀ w cs a b, (compute (.muls2 w) cs [a, b]).headD default =
    (compute (.bin .mul w) cs [a, b]).headD default
  mulu2_high : ∀ w cs a b, (compute (.mulu2 w) cs [a, b]).tail.headD default =
    (compute (.bin .muluh w) cs [a, b]).headD default
  muls2_high : ∀ w cs a b, (compute (.muls2 w) cs [a, b]).tail.headD default =
    (compute (.bin .mulsh w) cs [a, b]).headD default
  noRead : ∀ f flags args w, noReadGlobals flags = true →
    ∃ r w', ∀ g, helper f flags args g w = .ok (r, g, w')
  noWrite : ∀ f flags args g w r g' w', noWriteGlobals flags = true →
    helper f flags args g w = .ok (r, g', w') → g' = g
  noEffect : ∀ f flags args g w, noSideEffects flags = true →
    ∃ r, helper f flags args g w = .ok (r, g, w)

inductive Event (T : TempTable) (Val : Type) where
  | load (opc : Opcode) (consts : List Const) (args : List Val)
  | store (opc : Opcode) (consts : List Const) (args : List Val)
  | guest (opc : Opcode) (consts : List Const) (args : List Val)
  | call (consts : List Const) (args : List Val)
  | blockEnd (target : Option Label) (globals : Globals T Val)

inductive Leave (Val : Type) where
  | exitTb (consts : List Const)
  | gotoTb (consts : List Const)
  | gotoPtr (args : List Val)
  | exception
  | fellOff
  | noLabel
  | outOfFuel

structure State (Val World : Type) where
  temps : Temp → Val
  world : World
  endings : ℕ

inductive Next (Val World : Type) where
  | on (s : State Val World)
  | jump (l : Label) (s : State Val World)
  | leave (how : Leave Val) (s : State Val World)

def setOuts : List Temp → List Val → (Temp → Val) → Temp → Val
  | [], _, temps => temps
  | t :: ts, vs, temps => setOuts ts vs.tail (Function.update temps t (vs.headD default))

def setGlobals (g : Globals T Val) (temps : Temp → Val) : Temp → Val :=
  fun t => if h : t < T.nbGlobals then g ⟨t, h⟩ else temps t

namespace State

variable (s : State Val World)

def set (outs : List Temp) (vals : List Val) : State Val World :=
  { s with temps := setOuts outs vals s.temps }

def fade (F : Fading Val) (e : Ending) : State Val World :=
  { s with temps := fun t => F s.endings e t (s.temps t), endings := s.endings + 1 }

end State

namespace Meaning

variable (M : Meaning T Val World)

def args (s : State Val World) (ts : List Temp) : List Val := ts.map fun t => M.view t (s.temps t)

def globals (s : State Val World) : Globals T Val := fun i => M.view i (s.temps i)

def callHelper (op : Op) (s : State Val World) : List (Event T Val) × Next Val World :=
  match M.helper op.consts (callFlags op.consts) (M.args s op.ins) (M.globals s) s.world with
  | .ok (r, g, w) =>
    ([.call op.consts (M.args s op.ins)],
      .on { s with temps := setOuts op.outs r (setGlobals g s.temps), world := w })
  | .error w => ([.call op.consts (M.args s op.ins)], .leave .exception { s with world := w })

def accessGuest (op : Op) (s : State Val World) : List (Event T Val) × Next Val World :=
  match M.guest op.opc op.consts (M.args s op.ins) s.world with
  | .ok (r, w) => ([.guest op.opc op.consts (M.args s op.ins)], .on { s.set op.outs r with world := w })
  | .error w =>
    ([.guest op.opc op.consts (M.args s op.ins)], .leave .exception { s with world := w })

def branchLabel : List Const → Label
  | .label l :: _ => l
  | _ :: cs => branchLabel cs
  | [] => 0

def step (F : Fading Val) (op : Op) (s : State Val World) : List (Event T Val) × Next Val World :=
  match op.opc.kind with
  | .nop => ([], .on s)
  | .discard => ([], .on (s.fade F (.discard op.out0)))
  | .label => ([.blockEnd none (M.globals s)], .on (s.fade F .bbEnd))
  | .br =>
    ([.blockEnd (some (branchLabel op.consts)) (M.globals s)],
      .jump (branchLabel op.consts) (s.fade F .bbEnd))
  | .brcond =>
    if M.test op.opc op.consts (M.args s op.ins) then
      ([.blockEnd (some (branchLabel op.consts)) (M.globals s)],
        .jump (branchLabel op.consts) (s.fade F .bbEnd))
    else ([.blockEnd none (M.globals s)], .on (s.fade F .bbEnd))
  | .exitTb => ([.blockEnd none (M.globals s)], .leave (.exitTb op.consts) s)
  | .gotoPtr => ([.blockEnd none (M.globals s)], .leave (.gotoPtr (M.args s op.ins)) s)
  | .gotoTb =>
    if M.linked op.consts s.world then ([.blockEnd none (M.globals s)], .leave (.gotoTb op.consts) s)
    else ([.blockEnd none (M.globals s)], .on (s.fade F .bbExit))
  | .call => M.callHelper op s
  | .guest => M.accessGuest op s
  | .load =>
    ([.load op.opc op.consts (M.args s op.ins)],
      .on (s.set op.outs (M.load op.opc op.consts (M.args s op.ins) s.world)))
  | .store =>
    ([.store op.opc op.consts (M.args s op.ins)],
      .on { s with world := M.store op.opc op.consts (M.args s op.ins) s.world })
  | .compute => ([], .on (s.set op.outs (M.compute op.opc op.consts (M.args s op.ins))))

def seq (F : Fading Val) : List Op → State Val World → List (Event T Val) × Next Val World
  | [], s => ([], .leave .fellOff s)
  | op :: ops, s =>
    match M.step F op s with
    | (evs, .on s') => let r := seq F ops s'; (evs ++ r.1, r.2)
    | (evs, .jump l s') => (evs, .jump l s')
    | (evs, .leave how s') => (evs, .leave how s')

structure Final (T : TempTable) (Val World : Type) where
  how : Leave Val
  globals : Globals T Val
  world : World

def final (how : Leave Val) (s : State Val World) : Final T Val World := ⟨how, M.globals s, s.world⟩

end Meaning

def Op.defines (l : Label) (op : Op) : Bool := op.opc == .setLabel && op.consts == [.label l]

def fromLabel (l : Label) : List Op → Option (List Op)
  | [] => none
  | op :: ops => if op.defines l then some (op :: ops) else fromLabel l ops

namespace Meaning

variable (M : Meaning T Val World)

def afterSeq (goto : Label → State Val World → List (Event T Val) × Final T Val World) :
    List (Event T Val) × Next Val World → List (Event T Val) × Final T Val World
  | (evs, .on s) => (evs, M.final .fellOff s)
  | (evs, .leave how s) => (evs, M.final how s)
  | (evs, .jump l s) => (evs ++ (goto l s).1, (goto l s).2)

/-- A run of `prog` that has come to `ops`. -/
def run (F : Fading Val) (prog : List Op) :
    ℕ → List Op → State Val World → List (Event T Val) × Final T Val World
  | 0, ops, s => M.afterSeq (fun _ s' => ([], M.final .outOfFuel s')) (M.seq F ops s)
  | fuel + 1, ops, s =>
    M.afterSeq (fun l s' =>
      match fromLabel l prog with
      | none => ([], M.final .noLabel s')
      | some ops' => run F prog fuel ops' s') (M.seq F ops s)

end Meaning

end Tcg

end Iqemu64
