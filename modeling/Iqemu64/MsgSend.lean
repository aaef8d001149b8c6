import Iqemu64.HostTarget
import Iqemu64.Runs

/-!
# Message sends

`my_objc_msgSend_family` finds the implementation for a class and a selector and enters guest code at
once. For a host implementation it leaves a hint with the class, from which `tb_gen_code` takes the type
encoding when the address of the implementation has no block yet. A guest that has got hold of an
implementation can also jump to it, through `tb_lookup__cpu_state`.
-/

namespace Iqemu64
open ByteMemory TcgContext TrampolineState

/-- The part of `CPUARMState` that sends and jumps use. -/
structure ArmState where
  pc : BitVec 64
  xregs : Fin 31 → BitVec 64
  zregs : Fin 32 → BitVec 128
  x64Pc : BitVec 64

namespace ArmState

def setX (env : ArmState) (i : Fin 31) (v : BitVec 64) : ArmState :=
  { env with xregs := Function.update env.xregs i v }

def loadArmParameterRegs (env saved : ArmState) : ArmState :=
  { env with
    xregs := fun i => if i.val < 9 then saved.xregs i else env.xregs i
    zregs := fun i => if i.val < 8 then saved.zregs i else env.zregs i }

def SameEntry (a b : ArmState) : Prop :=
  a.pc = b.pc ∧ (∀ i : Fin 31, i.val < 9 → a.xregs i = b.xregs i) ∧
    ∀ i : Fin 32, i.val < 8 → a.zregs i = b.zregs i

end ArmState

structure ObjcRuntime where
  objectGetClass : BitVec 64 → BitVec 64
  classGetSuperclass : BitVec 64 → BitVec 64
  objcSuper : BitVec 64 → BitVec 64 × BitVec 64
  cacheGetImp : BitVec 64 → BitVec 64 → Option (BitVec 64)
  classGetMethodImplementation : BitVec 64 → BitVec 64 → BitVec 64
  realize : ArmState → ArmState
  methodTypes : BitVec 64 → BitVec 64 → Option (BitVec 64)
  string : BitVec 64 → String
  isObjcForward : BitVec 64 → Bool
  objcMsgForward : BitVec 64
  isObjcForward_objcMsgForward : isObjcForward objcMsgForward = true
  selAppearanceWhenContainedIn : BitVec 64
  selMethodForSelector : BitVec 64

inductive ObjcMsgsendType where
  | normal | super | super2
  deriving DecidableEq

inductive SelectorHandler where
  | nilTerminatedVari | methodForSelector
  deriving DecidableEq

/-- `env->code_gen_hints` when it is set. -/
structure CodeGenHints where
  pc : BitVec 64
  cls : BitVec 64
  handler : Option SelectorHandler

def ObjcRuntime.selectorHandler (R : ObjcRuntime) (selector : BitVec 64) : Option SelectorHandler :=
  if selector = R.selAppearanceWhenContainedIn then some .nilTerminatedVari
  else if selector = R.selMethodForSelector then some .methodForSelector
  else none

def ObjcRuntime.receiver (R : ObjcRuntime) (type : ObjcMsgsendType) (x0 : BitVec 64) :
    BitVec 64 × BitVec 64 :=
  match type with
  | .normal => (x0, R.objectGetClass x0)
  | .super => R.objcSuper x0
  | .super2 => ((R.objcSuper x0).1, R.classGetSuperclass (R.objcSuper x0).2)

def ObjcRuntime.lookup (R : ObjcRuntime) (cls selector : BitVec 64) : BitVec 64 :=
  (R.cacheGetImp cls selector).getD (R.classGetMethodImplementation cls selector)

def ObjcRuntime.afterLookup (R : ObjcRuntime) (cls selector : BitVec 64) (env : ArmState) : ArmState :=
  if (R.cacheGetImp cls selector).isSome then env else (R.realize env).loadArmParameterRegs env

def ArmState.plainRet (env : ArmState) : ArmState :=
  { env with
    pc := env.xregs 30
    xregs := Function.update (Function.update env.xregs 0 0) 1 0
    zregs := fun i => if i.val < 4 then 0 else env.zregs i }

namespace TrampolineState

variable (W : EmulatedProcess)

/-- `my_objc_msgSend_family` from the lookup on. The registers on entry to the implementation and the
hints if they are set, or `none` where it aborts. -/
def enterImp (s : TrampolineState) (R : ObjcRuntime) (cls : BitVec 64) (env : ArmState) :
    Option (ArmState × Option CodeGenHints) :=
  let selector := env.xregs 1
  let imp := R.lookup cls selector
  let env := R.afterLookup cls selector env
  let hints pc := some { pc := pc, cls := cls, handler := R.selectorHandler selector }
  if R.isObjcForward imp then
    some ({ env with pc := R.objcMsgForward }, hints R.objcMsgForward)
  else match s.objcGetRealPc W imp.toNat with
    | none => none
    | some (.arm, pc, _) => some ({ env with pc := pc }, none)
    | some (.armBlock, pc, block) =>
      some ((({ env with pc := pc }).setX 1 (env.xregs 0)).setX 0 (block.getD 0), none)
    | some (.callback, _, _) => none
    | some (.x86, _, _) => some ({ env with pc := imp }, hints imp)

def myObjcMsgSendFamily (s : TrampolineState) (R : ObjcRuntime) (type : ObjcMsgsendType)
    (env : ArmState) : Option (ArmState × Option CodeGenHints) :=
  let (zelf, cls) := R.receiver type (env.xregs 0)
  if zelf = 0 then some (env.plainRet, none)
  else s.enterImp W R cls (env.setX 0 zelf)

end TrampolineState

/-- `code_gen_buffer` and its size. -/
structure JitBuffer where
  codeGenBuffer : ℕ
  codeGenBufferSize : ℕ

def JitBuffer.isCodeInJit (J : JitBuffer) (v : BitVec 64) : Bool :=
  J.codeGenBuffer ≤ v.toNat && v.toNat < J.codeGenBuffer + J.codeGenBufferSize

/-- A guest jump to `p` up to the search for a block in `tb_lookup__cpu_state`: `pc` is the address of
the block to run. `none` is an abort. -/
def TrampolineState.tbLookupPc (W : EmulatedProcess) (s : TrampolineState) (J : JitBuffer)
    (env : ArmState) (p : BitVec 64) : Option ArmState :=
  if J.isCodeInJit p ∧ p ≠ env.x64Pc then
    match s.objcGetRealPc W p.toNat with
    | none => none
    | some (.x86, _, _) => none
    | some (_, pc, _) => some { env with pc := pc }
  else some { env with pc := p }

/-! ### Jumping to an implementation -/

inductive GuestImp where
  | function (imp : BitVec 64)
  | block (info : IQemuBlockInfo)

/-- The code at `p` is a method's trampoline and `imp` what the method is implemented by. -/
inductive Implements (W : EmulatedProcess) (s : TrampolineState) (p : ℕ) : GuestImp → Prop
  | function (m entry exit : BitVec 64) (method : ObjcMethod)
      (hcode : InPlace (TrampolineCode.ops W p (.objc m method entry exit)) p s.ctx)
      (himp : W.needEmulation (s.method m).methodImp) :
      Implements W s p (.function (s.method m).methodImp)
  | block (m : BitVec 64) (method : ObjcMethod) (info : IQemuBlockInfo)
      (hcode : InPlace (TrampolineCode.ops W p (.impBlock m method)) p s.ctx)
      (himp : W.myimpGetBlock (s.method m).methodImp = some info) :
      Implements W s p (.block info)

/-- A jump to `p` enters guest code as a send does. -/
def JumpsAsSent (W : EmulatedProcess) (s : TrampolineState) (R : ObjcRuntime) (J : JitBuffer)
    (env : ArmState) (p : BitVec 64) : Prop :=
  ∃ jumped sent, s.tbLookupPc W J env p = some jumped ∧
    s.myObjcMsgSendFamily W R .normal env = some (sent, none) ∧ jumped.SameEntry sent

/-- The registers with which a block's invoke function is entered by a send. -/
def GuestImp.FitsRegisters (env : ArmState) : GuestImp → Prop
  | .function _ => True
  | .block info => env.xregs 0 = info.block ∧ env.xregs 1 = env.xregs 0

theorem ObjcRuntime.afterLookup_xregs (R : ObjcRuntime) (cls selector : BitVec 64) (env : ArmState)
    {i : Fin 31} (hi : i.val < 9) : (R.afterLookup cls selector env).xregs i = env.xregs i := by
  unfold ObjcRuntime.afterLookup ArmState.loadArmParameterRegs
  split <;> simp [hi]

theorem ObjcRuntime.afterLookup_zregs (R : ObjcRuntime) (cls selector : BitVec 64) (env : ArmState)
    {i : Fin 32} (hi : i.val < 8) : (R.afterLookup cls selector env).zregs i = env.zregs i := by
  unfold ObjcRuntime.afterLookup ArmState.loadArmParameterRegs
  split <;> simp [hi]

theorem ArmState.setX_self (env : ArmState) (i : Fin 31) : env.setX i (env.xregs i) = env := by
  rw [ArmState.setX, Function.update_eq_self]

theorem ArmState.setX_zero_one (env : ArmState) (v : BitVec 64) :
    (env.setX 0 v).xregs 1 = env.xregs 1 :=
  rfl

section Jump
variable {W : EmulatedProcess} {s : TrampolineState} {R : ObjcRuntime} {J : JitBuffer}
  {env : ArmState} {p : BitVec 64}

theorem myObjcMsgSendFamily_normal (hobject : env.xregs 0 ≠ 0) :
    s.myObjcMsgSendFamily W R .normal env =
      s.enterImp W R (R.objectGetClass (env.xregs 0)) env := by
  simp only [myObjcMsgSendFamily, ObjcRuntime.receiver, if_neg hobject,
    ArmState.setX_self]

theorem tbLookupPc_inJit (hjit : J.isCodeInJit p) (hcfi : p ≠ env.x64Pc) :
    s.tbLookupPc W J env p = match s.objcGetRealPc W p.toNat with
      | none => none
      | some (.x86, _, _) => none
      | some (_, pc, _) => some { env with pc := pc } := by
  rw [tbLookupPc, if_pos ⟨hjit, hcfi⟩]

theorem jumpsAsSent_function {imp : BitVec 64} (h : Implements W s p.toNat (.function imp))
    (hjit : J.isCodeInJit p) (hcfi : p ≠ env.x64Pc) (hobject : env.xregs 0 ≠ 0)
    (hfound : R.lookup (R.objectGetClass (env.xregs 0)) (env.xregs 1) = p)
    (hforward : R.isObjcForward p = false) : JumpsAsSent W s R J env p := by
  cases h with
  | function m entry exit method hcode himp =>
    have hreal := objcGetRealPc_objc hcode
    have hjump : s.tbLookupPc W J env p =
        some { env with pc := (s.method m).methodImp } := by
      rw [tbLookupPc_inJit hjit hcfi, hreal]
    have hsend : s.myObjcMsgSendFamily W R .normal env =
        some ({ R.afterLookup (R.objectGetClass (env.xregs 0)) (env.xregs 1) env with
          pc := (s.method m).methodImp }, none) := by
      rw [myObjcMsgSendFamily_normal hobject]
      simp only [enterImp, hfound, hforward, hreal, Bool.false_eq_true, if_false]
    exact ⟨_, _, hjump, hsend, rfl, fun i hi => (R.afterLookup_xregs _ _ env hi).symm,
      fun i hi => (R.afterLookup_zregs _ _ env hi).symm⟩

/-- A jump leaves `x0` and `x1` as they are, a send passes the block and the receiver. -/
theorem jumpsAsSent_block {info : IQemuBlockInfo} (h : Implements W s p.toNat (.block info))
    (hjit : J.isCodeInJit p) (hcfi : p ≠ env.x64Pc) (hobject : env.xregs 0 ≠ 0)
    (hfound : R.lookup (R.objectGetClass (env.xregs 0)) (env.xregs 1) = p)
    (hforward : R.isObjcForward p = false) :
    JumpsAsSent W s R J env p ↔ env.xregs 0 = info.block ∧ env.xregs 1 = env.xregs 0 := by
  cases h with
  | block m method info hcode himp =>
    have hreal := objcGetRealPc_impBlock hcode
    rw [himp] at hreal
    have hjump : s.tbLookupPc W J env p = some { env with pc := info.origInvoke } := by
      rw [tbLookupPc_inJit hjit hcfi, hreal]
      rfl
    have hx0 := R.afterLookup_xregs (R.objectGetClass (env.xregs 0)) (env.xregs 1) env
      (show (0 : Fin 31).val < 9 by decide)
    have hsend : s.myObjcMsgSendFamily W R .normal env =
        some (((({ R.afterLookup (R.objectGetClass (env.xregs 0)) (env.xregs 1) env with
          pc := info.origInvoke }).setX 1 (env.xregs 0)).setX 0 info.block), none) := by
      rw [myObjcMsgSendFamily_normal hobject]
      simp only [enterImp, hfound, hforward, hreal, Bool.false_eq_true, if_false,
        Option.map_some, Option.getD_some, hx0]
    constructor
    · rintro ⟨jumped, sent, hjumped, hsent, -, hx, -⟩
      rw [hjump] at hjumped
      rw [hsend] at hsent
      cases hjumped
      cases hsent
      exact ⟨hx 0 (by decide), hx 1 (by decide)⟩
    · rintro ⟨hx0, hx1⟩
      refine ⟨_, _, hjump, hsend, rfl, fun i hi => ?_, fun i hi => ?_⟩
      · by_cases hi0 : i = 0
        · subst hi0
          exact hx0
        by_cases hi1 : i = 1
        · subst hi1
          exact hx1
        · simp only [ArmState.setX, Function.update_of_ne hi0, Function.update_of_ne hi1]
          exact (R.afterLookup_xregs _ _ env hi).symm
      · exact (R.afterLookup_zregs _ _ env hi).symm

/-- A jump to a method's trampoline enters guest code as the send does exactly if the method is
implemented by a function, or the registers already are what the block expects. -/
theorem jumpsAsSent_iff {imp : GuestImp} (h : Implements W s p.toNat imp)
    (hjit : J.isCodeInJit p) (hcfi : p ≠ env.x64Pc) (hobject : env.xregs 0 ≠ 0)
    (hfound : R.lookup (R.objectGetClass (env.xregs 0)) (env.xregs 1) = p)
    (hforward : R.isObjcForward p = false) :
    JumpsAsSent W s R J env p ↔ imp.FitsRegisters env := by
  cases imp with
  | function imp =>
    exact iff_of_true (jumpsAsSent_function h hjit hcfi hobject hfound hforward) trivial
  | block info => exact jumpsAsSent_block h hjit hcfi hobject hfound hforward

end Jump

def exampleRuntime : ObjcRuntime where
  objectGetClass := fun _ => 0x6000
  classGetSuperclass := fun _ => 0
  objcSuper := fun _ => (0, 0)
  cacheGetImp := fun _ _ => some 0x10000
  classGetMethodImplementation := fun _ _ => 0
  realize := id
  methodTypes := fun _ _ => none
  string := fun _ => ""
  isObjcForward := fun imp => imp = 0x4000
  objcMsgForward := 0x4000
  isObjcForward_objcMsgForward := rfl
  selAppearanceWhenContainedIn := 1
  selMethodForSelector := 2

def exampleJit : JitBuffer := ⟨0x10000, 0x10000⟩

/-- The receiver is at `0x7000`, the selector at `0x8000`. -/
def exampleEnv : ArmState :=
  ⟨0, fun i => if i = 0 then 0x7000 else if i = 1 then 0x8000 else 0, fun _ => 0, 0⟩

theorem jumpsAsSent_iff_function :
    ∃ s, freshTrampolines.objcQueryAndAddTrampoline exampleProcess 0 0x5000 0x11000 0x12000 =
        some (0x10000, s) ∧
      (JumpsAsSent exampleProcess s exampleRuntime exampleJit exampleEnv 0x10000 ↔
        (GuestImp.function (s.method 0x5000).methodImp).FitsRegisters exampleEnv) := by
  obtain ⟨s, hs, hemu⟩ : ∃ s,
      freshTrampolines.objcQueryAndAddTrampoline exampleProcess 0 0x5000 0x11000 0x12000 =
        some (0x10000, s) ∧ exampleProcess.needEmulation (s.method 0x5000).methodImp :=
    ⟨_, rfl, rfl⟩
  obtain ⟨-, -, hspec⟩ := queryAndAdd_spec
    (.objc 0x5000 (freshTrampolines.method 0x5000) 0x11000 0x12000) rfl
    (fun _ _ _ he => by cases he) hs
  obtain ⟨e, he, -⟩ | ⟨-, hgen⟩ := hspec
  · cases he
  · exact ⟨s, hs, jumpsAsSent_iff (.function 0x5000 _ _ _ hgen.inPlace hemu) (by decide)
      (by decide) (by decide) rfl rfl⟩

/-- The imp at `0x12000` was made from a block. -/
def blockProcess : EmulatedProcess :=
  { exampleProcess with myimpGetBlock := fun _ => some ⟨0x9000, 0x100003000⟩ }

def blockMethods : TrampolineState := { freshTrampolines with method := fun _ => ⟨0, 0, 0x12000⟩ }

/-- A jump to the imp of a block passes the receiver where a send passes the block. -/
theorem jumpsAsSent_iff_block :
    ∃ s, blockMethods.objcImpBlockQueryAndAddTrampoline blockProcess 0 0x5000 =
        some (0x10000, s) ∧ Implements blockProcess s 0x10000 (.block ⟨0x9000, 0x100003000⟩) ∧
      ¬ JumpsAsSent blockProcess s exampleRuntime exampleJit exampleEnv 0x10000 := by
  obtain ⟨s, hs⟩ : ∃ s,
      blockMethods.objcImpBlockQueryAndAddTrampoline blockProcess 0 0x5000 =
        some (0x10000, s) := ⟨_, rfl⟩
  obtain ⟨-, -, hspec⟩ := queryAndAdd_spec
    (.impBlock 0x5000 (blockMethods.method 0x5000)) rfl (fun _ _ _ he => by cases he) hs
  obtain ⟨e, he, -⟩ | ⟨-, hgen⟩ := hspec
  · cases he
  · have himp : Implements blockProcess s 0x10000 (.block ⟨0x9000, 0x100003000⟩) :=
      .block 0x5000 _ _ hgen.inPlace rfl
    refine ⟨s, hs, himp, fun h => ?_⟩
    have hregs := (jumpsAsSent_block himp (by decide) (by decide) (by decide) rfl rfl).mp h
    exact absurd hregs.1 (by decide)

/-! ### Sends to host methods -/

/-- What the block of a host address does. The string is the one that the code was generated for. -/
inductive A2xBridge where
  | types (signature : String)
  | handler (h : SelectorHandler)
  deriving DecidableEq

/-- The blocks by address, `types_a2x_codeptr` by string pointer, and the hints of the thread. -/
structure SendState where
  blocks : BitVec 64 → Option A2xBridge
  typesA2x : BitVec 64 → Option String
  hints : Option CodeGenHints

structure MessageSend where
  runtime : ObjcRuntime
  type : ObjcMsgsendType
  env : ArmState

namespace SendState

def abiA2xGenTrampolineForTypes (c : SendState) (R : ObjcRuntime) (types : BitVec 64) :
    String × SendState :=
  match c.typesA2x types with
  | some signature => (signature, c)
  | none =>
    (R.string types, { c with typesA2x := Function.update c.typesA2x types (some (R.string types)) })

/-- `tb_gen_code` for a host address that the hints are about. `none` is an abort. -/
def tbGenCode (c : SendState) (R : ObjcRuntime) (env : ArmState) (hints : CodeGenHints) :
    Option (A2xBridge × SendState) :=
  match R.methodTypes hints.cls (env.xregs 1) with
  | none => none
  | some types =>
    let (bridge, c) := match hints.handler with
      | some h => (A2xBridge.handler h, c)
      | none => let (signature, c) := c.abiA2xGenTrampolineForTypes R types
                (.types signature, c)
    some (bridge, { c with blocks := Function.update c.blocks env.pc (some bridge), hints := none })

def runSend (W : EmulatedProcess) (T : TrampolineState) (c : SendState) (e : MessageSend) :
    Option (Option A2xBridge × SendState) :=
  match T.myObjcMsgSendFamily W e.runtime e.type e.env with
  | none => none
  | some (_, none) => some (none, c)
  | some (env, some hints) =>
    if e.runtime.isObjcForward env.pc || W.needEmulation env.pc then
      some (none, { c with hints := some hints })
    else match c.blocks env.pc with
      | some bridge => some (some bridge, { c with hints := some hints })
      | none => (c.tbGenCode e.runtime env hints).map fun r => (some r.1, r.2)

end SendState

namespace MessageSend

def cls (e : MessageSend) : BitVec 64 := (e.runtime.receiver e.type (e.env.xregs 0)).2

def selector (e : MessageSend) : BitVec 64 := e.env.xregs 1

def imp (e : MessageSend) : BitVec 64 := e.runtime.lookup e.cls e.selector

def types (e : MessageSend) : Option (BitVec 64) := e.runtime.methodTypes e.cls e.selector

def encoding (e : MessageSend) : Option String := e.types.map e.runtime.string

def ToHost (W : EmulatedProcess) (T : TrampolineState) (e : MessageSend) : Prop :=
  ∃ env hints, T.myObjcMsgSendFamily W e.runtime e.type e.env = some (env, some hints) ∧
    e.runtime.isObjcForward env.pc = false ∧ W.needEmulation env.pc = false

end MessageSend

section Sends
variable {W : EmulatedProcess} {T : TrampolineState}

theorem enterImp_hints {R : ObjcRuntime} {cls : BitVec 64} {env env' : ArmState} {h : CodeGenHints}
    (hs : T.enterImp W R cls env = some (env', some h)) :
    h.cls = cls ∧ h.handler = R.selectorHandler (env.xregs 1) ∧ env'.xregs 1 = env.xregs 1 ∧
      (env'.pc = R.lookup cls (env.xregs 1) ∨ env'.pc = R.objcMsgForward) := by
  have hx1 := R.afterLookup_xregs cls (env.xregs 1) env (show (1 : Fin 31).val < 9 by decide)
  simp only [enterImp] at hs
  split at hs
  · cases hs
    exact ⟨rfl, rfl, hx1, .inr rfl⟩
  · split at hs
    · cases hs
    · cases hs
    · cases hs
    · cases hs
    · cases hs
      exact ⟨rfl, rfl, hx1, .inl rfl⟩

theorem myObjcMsgSendFamily_hints {e : MessageSend} {env : ArmState} {h : CodeGenHints}
    (hs : T.myObjcMsgSendFamily W e.runtime e.type e.env = some (env, some h)) :
    h.cls = e.cls ∧ h.handler = e.runtime.selectorHandler e.selector ∧ env.xregs 1 = e.selector ∧
      (env.pc = e.imp ∨ env.pc = e.runtime.objcMsgForward) := by
  simp only [myObjcMsgSendFamily] at hs
  split at hs
  · cases hs
  · have hspec := enterImp_hints hs
    rw [ArmState.setX_zero_one] at hspec
    exact hspec

theorem abiA2xGenTrampolineForTypes_spec (c : SendState) (R : ObjcRuntime) (types : BitVec 64) :
    c.abiA2xGenTrampolineForTypes R types =
      ((c.typesA2x types).getD (R.string types), { c with
        typesA2x := Function.update c.typesA2x types
          (some ((c.typesA2x types).getD (R.string types))) }) := by
  rw [SendState.abiA2xGenTrampolineForTypes]
  cases hcached : c.typesA2x types with
  | none => rfl
  | some signature =>
    have hsame : Function.update c.typesA2x types (some signature) = c.typesA2x := by
      rw [← hcached, Function.update_eq_self]
    rw [Option.getD_some, hsame]

/-- What a send to a host method does: it runs the block that its implementation has, or makes one by
the code that its type string has or gets. -/
theorem runSend_toHost {c c' : SendState} {e : MessageSend} {b : A2xBridge}
    (h : c.runSend W T e = some (some b, c'))
    (hplain : e.runtime.selectorHandler e.selector = none) :
    e.ToHost W T ∧ ((c.blocks e.imp = some b ∧ c'.blocks = c.blocks ∧ c'.typesA2x = c.typesA2x) ∨
      ∃ types signature, e.types = some types ∧ b = .types signature ∧
        signature = (c.typesA2x types).getD (e.runtime.string types) ∧
        c'.blocks = Function.update c.blocks e.imp (some b) ∧
        c'.typesA2x = Function.update c.typesA2x types (some signature)) := by
  rw [SendState.runSend] at h
  split at h
  · cases h
  · cases h
  · rename_i env hints hsend
    obtain ⟨hcls, hhandler, hsel, hpc⟩ := myObjcMsgSendFamily_hints hsend
    split at h
    · cases h
    · rename_i hhost
      rw [Bool.or_eq_true, not_or, Bool.not_eq_true, Bool.not_eq_true] at hhost
      have himp : env.pc = e.imp := by
        refine hpc.resolve_right fun hforward => ?_
        rw [hforward, e.runtime.isObjcForward_objcMsgForward] at hhost
        exact absurd hhost.1 (by decide)
      refine ⟨⟨env, hints, hsend, hhost⟩, ?_⟩
      rw [himp] at h
      split at h
      · rename_i hhit
        cases h
        exact .inl ⟨hhit, rfl, rfl⟩
      · obtain ⟨⟨b', c''⟩, hgen, heq⟩ := Option.map_eq_some_iff.mp h
        cases heq
        simp only [SendState.tbGenCode, hcls, hsel, hhandler, hplain, himp] at hgen
        split at hgen
        · cases hgen
        · rename_i types htypes
          cases hgen
          rw [abiA2xGenTrampolineForTypes_spec]
          exact .inr ⟨types, _, htypes, rfl, rfl, rfl, rfl⟩

/-- A send that does not run a block of a host method leaves the caches as they are. -/
theorem runSend_other {c c' : SendState} {e : MessageSend} (h : c.runSend W T e = some (none, c')) :
    c'.blocks = c.blocks ∧ c'.typesA2x = c.typesA2x := by
  rw [SendState.runSend] at h
  split at h
  · cases h
  · cases h
    exact ⟨rfl, rfl⟩
  · split at h
    · cases h
      exact ⟨rfl, rfl⟩
    · split at h
      · cases h
      · obtain ⟨r, -, heq⟩ := Option.map_eq_some_iff.mp h
        cases heq

variable (W T)

def SendStep (c : SendState) (e : MessageSend) (c' : SendState) : Prop :=
  ∃ b, c.runSend W T e = some (b, c')

/-- A send to a host method runs code that was generated for the type encoding of the method found. -/
def UsesOwnTypes (c : SendState) (e : MessageSend) : Prop :=
  ∀ b c', c.runSend W T e = some (some b, c') →
    ∃ signature, e.encoding = some signature ∧ b = .types signature

/-- Of two sends to host methods with one implementation or one type string, both have the same type
encoding. -/
def Compatible (e e' : MessageSend) : Prop :=
  e.ToHost W T → e'.ToHost W T → e.imp = e'.imp ∨ e.types = e'.types → e.encoding = e'.encoding

structure FromSends (es : List MessageSend) (c : SendState) : Prop where
  blocks : ∀ {pc b}, c.blocks pc = some b →
    ∃ e ∈ es, e.ToHost W T ∧ e.imp = pc ∧ e.encoding.map A2xBridge.types = some b
  typesA2x : ∀ {types signature}, c.typesA2x types = some signature →
    ∃ e ∈ es, e.ToHost W T ∧ e.types = some types ∧ e.encoding = some signature

variable {W T} {es : List MessageSend} {c c' : SendState} {e : MessageSend} {b : A2xBridge}

theorem FromSends.runSend_types (hc : FromSends W T es c) (he : e ∈ es)
    (hsame : ∀ e ∈ es, ∀ e' ∈ es, Compatible W T e e')
    (hplain : e.runtime.selectorHandler e.selector = none)
    (h : c.runSend W T e = some (some b, c')) : e.encoding.map A2xBridge.types = some b := by
  obtain ⟨hhost, ⟨hhit, -⟩ | ⟨types, signature, htypes, rfl, hsig, -⟩⟩ := runSend_toHost h hplain
  · obtain ⟨e', he', hhost', himp, hb⟩ := hc.blocks hhit
    rw [hsame e he e' he' hhost hhost' (.inl himp.symm), hb]
  · cases hcached : c.typesA2x types with
    | none =>
      rw [hsig, hcached, MessageSend.encoding, htypes]
      rfl
    | some old =>
      obtain ⟨e', he', hhost', htypes', hold⟩ := hc.typesA2x hcached
      rw [hsig, hcached, hsame e he e' he' hhost hhost' (.inr (htypes.trans htypes'.symm)), hold]
      rfl

theorem FromSends.runSend (hc : FromSends W T es c) (he : e ∈ es)
    (hsame : ∀ e ∈ es, ∀ e' ∈ es, Compatible W T e e')
    (hplain : e.runtime.selectorHandler e.selector = none)
    (h : c.runSend W T e = some (some b, c')) : FromSends W T es c' := by
  have hb := hc.runSend_types he hsame hplain h
  obtain ⟨hhost, ⟨-, hblocks, htypesA2x⟩ | ⟨types, signature, htypes, rfl, -, hblocks, htypesA2x⟩⟩ :=
    runSend_toHost h hplain
  · constructor
    · rw [hblocks]
      exact hc.blocks
    · rw [htypesA2x]
      exact hc.typesA2x
  · constructor
    · intro pc b hpc
      rw [hblocks, Function.update_apply] at hpc
      split at hpc
      · rename_i hown
        cases hpc
        exact ⟨e, he, hhost, hown.symm, hb⟩
      · exact hc.blocks hpc
    · intro types' signature' hcached
      rw [htypesA2x, Function.update_apply] at hcached
      split at hcached
      · rename_i hown
        cases hcached
        obtain ⟨own, hencoding, hown'⟩ := Option.map_eq_some_iff.mp hb
        cases hown'
        exact ⟨e, he, hhost, htypes.trans (congrArg some hown.symm), hencoding⟩
      · exact hc.typesA2x hcached

end Sends

/-- Every send uses the type encoding of its own method if sends that share an implementation or a type
string share the encoding, and none is of a selector with a handler. -/
theorem sends_useOwnTypes (W : EmulatedProcess) (T : TrampolineState) (es : List MessageSend)
    (hsame : ∀ e ∈ es, ∀ e' ∈ es, Compatible W T e e')
    (hplain : ∀ e ∈ es, e.runtime.selectorHandler e.selector = none) :
    Runs.Along (SendStep W T) (UsesOwnTypes W T) ⟨fun _ => none, fun _ => none, none⟩ es := by
  have hmem : Runs.Along (SendStep W T) (fun _ e => e ∈ es) ⟨fun _ => none, fun _ => none, none⟩ es :=
    .of_forall fun _ e he => he
  have hinv := hmem.invariant (I := FromSends W T es) (fun c e c' hc he hstep => by
    obtain ⟨b, hb⟩ := hstep
    cases b with
    | none =>
      obtain ⟨hblocks, htypesA2x⟩ := runSend_other hb
      exact ⟨fun h => hc.blocks (hblocks ▸ h), fun h => hc.typesA2x (htypesA2x ▸ h)⟩
    | some b => exact hc.runSend he hsame (hplain e he) hb)
    ⟨fun h => (by cases h), fun h => (by cases h)⟩
  refine hinv.mono fun c e ⟨hc, he⟩ b c' hb => ?_
  obtain ⟨signature, hsig, rfl⟩ :=
    Option.map_eq_some_iff.mp (hc.runSend_types he hsame (hplain e he) hb)
  exact ⟨signature, hsig, rfl⟩

def sharedImp : ObjcRuntime :=
  { exampleRuntime with
    cacheGetImp := fun _ _ => some 0x12000
    methodTypes := fun _ selector => some (if selector = 0x8000 then 0x13000 else 0x13100)
    string := fun types => if types = 0x13000 then "v16@0:8" else "v24@0:8d16" }

def sendSelector (selector : BitVec 64) : MessageSend :=
  ⟨sharedImp, .normal, exampleEnv.setX 1 selector⟩

theorem sends_useOwnTypes_twice :
    Runs.Along (SendStep exampleProcess freshTrampolines)
      (UsesOwnTypes exampleProcess freshTrampolines) ⟨fun _ => none, fun _ => none, none⟩
      [sendSelector 0x8000, sendSelector 0x8000] := by
  refine sends_useOwnTypes _ _ _ (fun e he e' he' _ _ _ => ?_) (fun e he => ?_)
  · simp only [List.mem_cons, List.not_mem_nil, or_false, or_self] at he he'
    rw [he, he']
  · simp only [List.mem_cons, List.not_mem_nil, or_false, or_self] at he
    rw [he]
    decide

/-- The second send runs the code that was made for the encoding of the first. -/
theorem sends_useOwnTypes_sharedImp :
    ¬ Runs.Along (SendStep exampleProcess freshTrampolines)
      (UsesOwnTypes exampleProcess freshTrampolines) ⟨fun _ => none, fun _ => none, none⟩
      [sendSelector 0x8000, sendSelector 0x8100] := by
  intro h
  obtain ⟨c, hfirst, c', hsecond⟩ : ∃ c,
      SendStep exampleProcess freshTrampolines ⟨fun _ => none, fun _ => none, none⟩
        (sendSelector 0x8000) c ∧
      ∃ c', c.runSend exampleProcess freshTrampolines (sendSelector 0x8100) =
        some (some (.types "v16@0:8"), c') :=
    ⟨_, ⟨_, rfl⟩, _, rfl⟩
  obtain ⟨signature, hencoding, hsig⟩ := (h.2 c hfirst).1 _ c' hsecond
  have hown : (sendSelector 0x8100).encoding = some "v24@0:8d16" := rfl
  rw [hown] at hencoding
  cases hencoding
  exact absurd hsig (by decide)

end Iqemu64
