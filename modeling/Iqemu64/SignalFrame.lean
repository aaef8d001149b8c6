import Iqemu64.ByteMemory
import Iqemu64.TaskSignals

/-!
# The signal frame

`targetSetupFrame` puts the interrupted state of the guest on its stack and lets it go on in the
handler, with the code of a return trampoline behind the saved state. The frame is a list of writes
relative to its address.
-/

namespace Iqemu64
open ByteMemory SigSet List

/-- The guest's registers, memory and blocked signals. Register 31 is the stack pointer, and a vector
register has its two low words in front. `zcr` is the low half byte of `zcr_el[1]` where the CPU has
scalable vectors. -/
structure GuestCpu where
  xregs : ℕ → BitVec 64
  pc : BitVec 64
  pstate : BitVec 64
  fpsr : BitVec 32
  fpcr : BitVec 32
  zregs : ℕ → ℕ → BitVec 64
  pregs : ℕ → ℕ → BitVec 64
  zcr : Option (Fin 16)
  faultAddress : BitVec 64
  altstackSp : BitVec 64
  altstackSize : BitVec 64
  signalMask : SigSet
  sigsuspendMask : SigSet
  inSigsuspend : Bool
  pageWritable : ℕ → Bool
  mem : Mem

namespace GuestCpu

variable (cpu : GuestCpu)

def setReg (n : ℕ) (v : BitVec 64) : GuestCpu := { cpu with xregs := Function.update cpu.xregs n v }

def onSigStack (sp : BitVec 64) : Bool := sp - cpu.altstackSp < cpu.altstackSize

def sasSsFlags (sp : BitVec 64) : ℕ :=
  if cpu.altstackSize = 0 then 4 else if cpu.onSigStack sp then 1 else 0

def targetSigsp (sp : BitVec 64) (ka : SigAction) : BitVec 64 :=
  if ka.onstack = true ∧ cpu.sasSsFlags sp = 0 then cpu.altstackSp + cpu.altstackSize else sp

def getSigframe (ka : SigAction) (size : ℕ) : BitVec 64 :=
  (cpu.targetSigsp (cpu.xregs 31) ka - BitVec.ofNat 64 size) &&& ~~~15

/-- `lock_user` for writing: `page_check_range` refuses a range that wraps around. -/
def lockUser (start len : ℕ) : Bool :=
  len = 0 || (decide (start + len ≤ 2 ^ 64) &&
    (range' (start / 4096) ((start + len + 4095) / 4096 - start / 4096)).all cpu.pageWritable)

end GuestCpu

structure PutUser where
  offset : ℕ
  width : ℕ
  value : ℕ
  deriving DecidableEq, Repr

/-- The stores of `tswap_siginfo`, which stay within `struct target_siginfo`. -/
structure SiginfoPuts where
  puts : List PutUser
  within : ∀ p ∈ puts, p.offset + p.width ≤ 128

def putAll (base : ℕ) (puts : List PutUser) (m : Mem) : Mem :=
  puts.foldl (fun m p => m.storeWord (base + p.offset) p.width p.value) m

def ofsTucFlags : ℕ := 128
def ofsTucLink : ℕ := 136
def ofsTucStack : ℕ := 144
def ofsTucSigmask : ℕ := 168
def ofsFaultAddress : ℕ := 304
def ofsRegs : ℕ := 312
def ofsSp : ℕ := 560
def ofsPc : ℕ := 568
def ofsPstate : ℕ := 576
def ofsReserved : ℕ := 592
def sizeofSiginfo : ℕ := 128
def sizeofRtSigframe : ℕ := 4688
def sizeofFpsimdContext : ℕ := 528
def sizeofExtraContext : ℕ := 32
def sizeofCtx : ℕ := 8
def sizeofFrameRecord : ℕ := 24

def fpsimdMagic : ℕ := 0x46508001
def extraMagic : ℕ := 0x45585401
def sveMagic : ℕ := 0x53564501

def sveZregOffset (vq n : ℕ) : ℕ := 16 + vq * 16 * n

def svePregOffset (vq n : ℕ) : ℕ := sveZregOffset vq 32 + vq * 2 * n

def sveSize (vq : ℕ) : ℕ := (svePregOffset vq 17 + 15) / 16 * 16

structure SigframeLayout where
  totalSize : ℕ
  extraBase : ℕ := 0
  extraSize : ℕ := 0
  stdEndOfs : ℕ := 0
  extraOfs : ℕ := 0
  extraEndOfs : ℕ := 0

def allocSigframeSpace (size : ℕ) (l : SigframeLayout) : ℕ × SigframeLayout :=
  let loc := l.totalSize
  if l.extraBase ≠ 0 then
    (loc, { l with extraSize := l.extraSize + size, totalSize := l.totalSize + size })
  else if size + loc > sizeofRtSigframe - sizeofCtx then
    let stdEnd := loc + sizeofExtraContext
    let base := stdEnd + sizeofCtx
    (base, { l with extraOfs := loc, stdEndOfs := stdEnd, extraBase := base, extraSize := size,
                    totalSize := base + size })
  else (loc, { l with totalSize := l.totalSize + size })

structure FramePlan where
  fpsimdOfs : ℕ
  sveOfs : ℕ
  layout : SigframeLayout
  frOfs : ℕ
  totalSize : ℕ

def framePlan (zcr : Option (Fin 16)) : FramePlan :=
  let (fpsimdOfs, l) := allocSigframeSpace sizeofFpsimdContext { totalSize := ofsReserved }
  let (sveOfs, l) :=
    match zcr with
    | some z => allocSigframeSpace (sveSize (z + 1)) l
    | none => (0, l)
  let l :=
    if l.extraOfs ≠ 0 then
      let (ofs, l) := allocSigframeSpace sizeofCtx l
      { l with extraEndOfs := ofs }
    else { l with stdEndOfs := l.totalSize, totalSize := l.totalSize + sizeofCtx }
  let frOfs := max l.totalSize sizeofRtSigframe
  { fpsimdOfs, sveOfs, layout := l, frOfs, totalSize := frOfs + sizeofFrameRecord }

namespace GuestCpu

variable (cpu : GuestCpu)

def generalFrame (set : BitVec 64) : List PutUser :=
  [⟨ofsTucFlags, 8, 0⟩, ⟨ofsTucLink, 8, 0⟩, ⟨ofsTucStack, 8, cpu.altstackSp.toNat⟩,
    ⟨ofsTucStack + 8, 8, cpu.sasSsFlags (cpu.xregs 31)⟩,
    ⟨ofsTucStack + 16, 8, cpu.altstackSize.toNat⟩] ++
  (range 31).map (fun i => ⟨ofsRegs + 8 * i, 8, (cpu.xregs i).toNat⟩) ++
  [⟨ofsSp, 8, (cpu.xregs 31).toNat⟩, ⟨ofsPc, 8, cpu.pc.toNat⟩, ⟨ofsPstate, 8, cpu.pstate.toNat⟩,
    ⟨ofsFaultAddress, 8, cpu.faultAddress.toNat⟩, ⟨ofsTucSigmask, 8, set.toNat⟩]

def fpsimdRecord (ofs : ℕ) : List PutUser :=
  [⟨ofs, 4, fpsimdMagic⟩, ⟨ofs + 4, 4, sizeofFpsimdContext⟩, ⟨ofs + 8, 4, cpu.fpsr.toNat⟩,
    ⟨ofs + 12, 4, cpu.fpcr.toNat⟩] ++
  (range 32).flatMap fun i =>
    [⟨ofs + 16 + 16 * i, 8, (cpu.zregs i 0).toNat⟩, ⟨ofs + 24 + 16 * i, 8, (cpu.zregs i 1).toNat⟩]

def sveRecord (ofs vq : ℕ) : List PutUser :=
  [⟨ofs, 4, sveMagic⟩, ⟨ofs + 4, 4, sveSize vq⟩, ⟨ofs + 8, 2, vq * 16⟩] ++
  (range 32).flatMap (fun i => (range (vq * 2)).map fun j =>
    ⟨ofs + sveZregOffset vq i + 8 * j, 8, (cpu.zregs i j).toNat⟩) ++
  (range 17).flatMap fun i => (range vq).map fun j =>
    ⟨ofs + svePregOffset vq i + 2 * j, 2, ((cpu.pregs i (j / 4)) >>> (j % 4 * 16)).toNat⟩

end GuestCpu

def endRecord (ofs : ℕ) : List PutUser := [⟨ofs, 4, 0⟩, ⟨ofs + 4, 4, 0⟩]

def extraRecord (ofs datap size : ℕ) : List PutUser :=
  [⟨ofs, 4, extraMagic⟩, ⟨ofs + 4, 4, sizeofExtraContext⟩, ⟨ofs + 8, 8, datap⟩, ⟨ofs + 16, 4, size⟩]

def trampMov : BitVec 32 := 0xd2801168
def trampSvc : BitVec 32 := 0xd4000001

namespace GuestCpu

variable (cpu : GuestCpu)

def frameRecord (ofs : ℕ) : List PutUser :=
  [⟨ofs, 8, (cpu.xregs 29).toNat⟩, ⟨ofs + 8, 8, (cpu.xregs 30).toNat⟩,
    ⟨ofs + 16, 4, trampMov.toNat⟩, ⟨ofs + 20, 4, trampSvc.toNat⟩]

def frameWrites (frameAddr : BitVec 64) (set : BitVec 64) : List PutUser :=
  let plan := framePlan cpu.zcr
  let l := plan.layout
  cpu.generalFrame set ++ cpu.fpsimdRecord plan.fpsimdOfs ++ endRecord l.stdEndOfs ++
    (if l.extraOfs ≠ 0 then
      extraRecord l.extraOfs (frameAddr + BitVec.ofNat 64 l.extraBase).toNat l.extraSize ++
        endRecord l.extraEndOfs
    else []) ++
    (if plan.sveOfs ≠ 0 then cpu.sveRecord plan.sveOfs ((cpu.zcr.map (·.val + 1)).getD 0) else []) ++
    cpu.frameRecord plan.frOfs

/-- `target_setup_frame`: the guest goes on in the handler of `ka` at `handler`. Where the frame cannot
be written the result is `none`, and the source forces a segmentation fault. `info` are the writes of
`tswap_siginfo`. -/
def targetSetupFrame (usig : ℕ) (ka : SigAction) (handler : BitVec 64) (info : SiginfoPuts)
    (set : BitVec 64) : Option GuestCpu :=
  let plan := framePlan cpu.zcr
  let frameAddr := cpu.getSigframe ka plan.totalSize
  if cpu.lockUser frameAddr.toNat plan.totalSize then
    let mem := putAll frameAddr.toNat (cpu.frameWrites frameAddr set) cpu.mem
    let cpu' : GuestCpu := { cpu with mem := putAll frameAddr.toNat info.puts mem, pc := handler }
    some ((((((cpu'.setReg 0 (BitVec.ofNat 64 usig)).setReg 31 frameAddr).setReg 29
      (frameAddr + BitVec.ofNat 64 plan.frOfs)).setReg 30
        (frameAddr + BitVec.ofNat 64 (plan.frOfs + 16))).setReg 1 frameAddr).setReg 2
          (frameAddr + BitVec.ofNat 64 sizeofSiginfo))
  else none

def blockSignals (sig : ℕ) (ka : SigAction) : GuestCpu :=
  let set := targetToHostSigset ka.mask
  let set := if ka.nodefer then set else sigaddset set sig
  let blocked := if cpu.inSigsuspend then cpu.sigsuspendMask else cpu.signalMask
  { cpu with signalMask := blocked ||| set, inSigsuspend := false }

/-- The part of `handle_pending_signal` that runs a handler of the guest. The mask before is saved in
the frame. -/
def deliver (sig : ℕ) (ka : SigAction) (handler : BitVec 64) (info : SiginfoPuts) : Option GuestCpu :=
  let targetOldSet := cpu.signalMask.setWidth 64
  (cpu.blockSignals sig ka).targetSetupFrame sig ka handler info targetOldSet

end GuestCpu

theorem putAll_append (base : ℕ) (ps qs : List PutUser) (m : Mem) :
    putAll base (ps ++ qs) m = putAll base qs (putAll base ps m) := foldl_append

theorem putAll_outside (base : ℕ) (puts : List PutUser) (m : Mem) (a : ℕ)
    (h : ∀ p ∈ puts, a < base + p.offset ∨ base + p.offset + p.width ≤ a) :
    putAll base puts m a = m a := by
  induction puts generalizing m with
  | nil => rfl
  | cons p ps ih =>
    have hp := h p mem_cons_self
    calc putAll base (p :: ps) m a
        = m.storeWord (base + p.offset) p.width p.value a :=
          ih _ (forall_mem_cons.mp h).2
      _ = m a := Mem.storeWord_outside _ _ _ _ _ hp

/-- The frame record lies behind the standard space, and the whole frame is small. -/
theorem framePlan_bounds (zcr : Option (Fin 16)) :
    sizeofRtSigframe ≤ (framePlan zcr).frOfs ∧
      (framePlan zcr).totalSize = (framePlan zcr).frOfs + sizeofFrameRecord ∧
      (framePlan zcr).totalSize < 16384 := by
  decide +revert

end Iqemu64
