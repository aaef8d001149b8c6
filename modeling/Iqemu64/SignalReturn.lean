import Iqemu64.SignalFrame

/-!
# The return from a signal handler

A handler returns into the trampoline of its frame, which asks for `rt_sigreturn`. The system call
has an empty body here, so nothing of the frame comes back.
-/

namespace Iqemu64
open ByteMemory List BitVec

inductive TrampInsn where
  | movz (d : ℕ) (imm : BitVec 16)
  | svc (imm : BitVec 16)
  deriving DecidableEq, Repr

def decodeTrampInsn (w : BitVec 32) : Option TrampInsn :=
  if w.extractLsb' 21 11 = 0b11010010100 then some (.movz (w.extractLsb' 0 5).toNat (w.extractLsb' 5 16))
  else if w.extractLsb' 21 11 = 0b11010100000 ∧ w.extractLsb' 0 5 = 1 then
    some (.svc (w.extractLsb' 5 16))
  else none

def targetErestartsys : ℤ := 512
def targetQemuEsigreturn : ℤ := 513

namespace GuestCpu

variable (cpu : GuestCpu)

def doSyscall (_num : BitVec 64) (_args : List (BitVec 64)) : GuestCpu × ℤ := (cpu, 0)

def excpSwi : GuestCpu :=
  let (cpu, ret) := cpu.doSyscall (cpu.xregs 8) ((range 6).map cpu.xregs)
  if ret = -targetErestartsys then { cpu with pc := cpu.pc - 4 }
  else if ret ≠ -targetQemuEsigreturn then cpu.setReg 0 (BitVec.ofInt 64 ret)
  else cpu

def stepTramp : Option GuestCpu :=
  match decodeTrampInsn (BitVec.ofNat 32 (cpu.mem.loadWord cpu.pc.toNat 4)) with
  | some (.movz d imm) =>
    let cpu' := if d = 31 then cpu else cpu.setReg d (imm.setWidth 64)
    some { cpu' with pc := cpu.pc + 4 }
  | some (.svc _) => some ({ cpu with pc := cpu.pc + 4 } : GuestCpu).excpSwi
  | none => none

def returnTrampoline : Option GuestCpu := cpu.stepTramp.bind stepTramp

/-- What a function may do between its entry and its return to the link register: the registers that
the callee saves and the memory of the caller, here `size` bytes from the stack pointer up, are as on
entry. -/
structure HandlerReturns (size : ℕ) (entry exit : GuestCpu) : Prop where
  pc : exit.pc = entry.xregs 30
  saved : ∀ n, 19 ≤ n → n ≤ 29 → exit.xregs n = entry.xregs n
  sp : exit.xregs 31 = entry.xregs 31
  vectors : ∀ n, 8 ≤ n → n ≤ 15 → exit.zregs n 0 = entry.zregs n 0
  caller : ∀ k < size, exit.mem ((entry.xregs 31).toNat + k) = entry.mem ((entry.xregs 31).toNat + k)

structure SameContext (before after : GuestCpu) : Prop where
  pc : after.pc = before.pc
  xregs : ∀ n < 32, after.xregs n = before.xregs n
  pstate : after.pstate = before.pstate
  fpsr : after.fpsr = before.fpsr
  fpcr : after.fpcr = before.fpcr
  vectors : ∀ n < 32, ∀ k < 2, after.zregs n k = before.zregs n k
  signalMask : after.signalMask = before.signalMask

/-- The guest goes on as it was, once a handler that left it in `exit` has returned. -/
def Resumes (before exit : GuestCpu) : Prop :=
  ∃ after, exit.returnTrampoline = some after ∧ SameContext before after

variable {cpu}
variable {sig : ℕ} {ka : SigAction} {handler : BitVec 64} {info : SiginfoPuts} {entry : GuestCpu}

structure Entered (frameAddr : BitVec 64) (zcr : Option (Fin 16)) (entry : GuestCpu) : Prop where
  sp : entry.xregs 31 = frameAddr
  lr : entry.xregs 30 = frameAddr + BitVec.ofNat 64 ((framePlan zcr).frOfs + 16)
  room : frameAddr.toNat + (framePlan zcr).totalSize ≤ 2 ^ 64
  mov : entry.mem.loadWord (frameAddr.toNat + ((framePlan zcr).frOfs + 16)) 4 = trampMov.toNat
  svc : entry.mem.loadWord (frameAddr.toNat + ((framePlan zcr).frOfs + 20)) 4 = trampSvc.toNat

theorem loadWord_putAll (base : ℕ) (front back : List PutUser) (p : PutUser) (m : Mem)
    (hp : p.value < 256 ^ p.width)
    (h : ∀ q ∈ back, p.offset + p.width ≤ q.offset ∨ q.offset + q.width ≤ p.offset) :
    (putAll base (front ++ p :: back) m).loadWord (base + p.offset) p.width = p.value := by
  rw [← singleton_append, putAll_append, putAll_append]
  have hback : ∀ k < p.width, putAll base back (putAll base [p] (putAll base front m))
      (base + p.offset + k) = putAll base [p] (putAll base front m) (base + p.offset + k) := by
    intro k hk
    refine putAll_outside base back _ _ fun q hq => ?_
    have := h q hq
    omega
  calc (putAll base back (putAll base [p] (putAll base front m))).loadWord (base + p.offset) p.width
      = (putAll base [p] (putAll base front m)).loadWord (base + p.offset) p.width :=
        Mem.loadWord_congr _ _ _ _ hback
    _ = p.value % 256 ^ p.width := Mem.loadWord_storeWord _ _ _ _
    _ = p.value := Nat.mod_eq_of_lt hp

theorem trampMov_lt : trampMov.toNat < 256 ^ 4 := by decide

theorem trampSvc_lt : trampSvc.toNat < 256 ^ 4 := by decide

theorem frameWrites_eq_append (cpu : GuestCpu) (frameAddr set : BitVec 64) :
    ∃ front, cpu.frameWrites frameAddr set =
      front ++ [⟨(framePlan cpu.zcr).frOfs + 16, 4, trampMov.toNat⟩,
        ⟨(framePlan cpu.zcr).frOfs + 20, 4, trampSvc.toNat⟩] := by
  unfold frameWrites frameRecord
  exact ⟨_ ++ [_, _], (append_assoc _ [_, _] [_, _]).symm⟩

theorem targetSetupFrame_entered (cpu : GuestCpu) {set : BitVec 64}
    (h : cpu.targetSetupFrame sig ka handler info set = some entry) :
    Entered (cpu.getSigframe ka (framePlan cpu.zcr).totalSize) cpu.zcr entry := by
  obtain ⟨hfr, htotal, -⟩ := framePlan_bounds cpu.zcr
  have hinfo : ∀ q ∈ info.puts, q.offset + q.width ≤ (framePlan cpu.zcr).frOfs := by
    intro q hq
    have := info.within q hq
    simp only [sizeofRtSigframe] at hfr
    omega
  obtain ⟨front, hfront⟩ := frameWrites_eq_append cpu
    (cpu.getSigframe ka (framePlan cpu.zcr).totalSize) set
  unfold targetSetupFrame at h
  simp only at h
  split at h
  · rename_i hlock
    injection h with h
    subst h
    refine ⟨rfl, rfl, ?_, ?_, ?_⟩
    · simp only [lockUser, Bool.or_eq_true, Bool.and_eq_true, decide_eq_true_eq] at hlock
      omega
    -- the two words of the trampoline are the last ones before the signal information
    · simp only [setReg, hfront, ← putAll_append]
      rw [List.append_assoc]
      refine loadWord_putAll _ _ _ ⟨_, 4, trampMov.toNat⟩ _ trampMov_lt fun q hq => ?_
      rcases mem_cons.mp hq with rfl | hq
      · exact .inl le_rfl
      · exact .inr ((hinfo q hq).trans (Nat.le_add_right _ _))
    · simp only [setReg, hfront, ← putAll_append]
      rw [List.append_assoc, List.cons_append, List.append_cons front]
      refine loadWord_putAll _ _ _ ⟨_, 4, trampSvc.toNat⟩ _ trampSvc_lt fun q hq => ?_
      exact .inr ((hinfo q hq).trans (Nat.le_add_right _ _))
  · simp at h

theorem deliver_entered (h : cpu.deliver sig ka handler info = some entry) :
    Entered (cpu.getSigframe ka (framePlan cpu.zcr).totalSize) cpu.zcr entry :=
  targetSetupFrame_entered (cpu.blockSignals sig ka) h

def behindTrampoline (exit : GuestCpu) : GuestCpu :=
  { (exit.setReg 8 139).setReg 0 0 with pc := exit.pc + 8 }

theorem behindTrampoline_xregs (exit : GuestCpu) (n : ℕ) (h0 : n ≠ 0) (h8 : n ≠ 8) :
    exit.behindTrampoline.xregs n = exit.xregs n := by
  simp [behindTrampoline, setReg, Function.update_of_ne, h0, h8]

theorem stepTramp_mov (cpu : GuestCpu) (h : cpu.mem.loadWord cpu.pc.toNat 4 = trampMov.toNat) :
    cpu.stepTramp = some { cpu.setReg 8 139 with pc := cpu.pc + 4 } := by
  unfold stepTramp
  rw [h]
  rfl

theorem stepTramp_svc (cpu : GuestCpu) (h : cpu.mem.loadWord cpu.pc.toNat 4 = trampSvc.toNat) :
    cpu.stepTramp = some { cpu.setReg 0 0 with pc := cpu.pc + 4 } := by
  unfold stepTramp
  rw [h]
  rfl

/-- A word of the frame is still there when the handler returns. -/
theorem HandlerReturns.loadWord {size : ℕ} {entry exit : GuestCpu} (h : HandlerReturns size entry exit)
    (ofs n : ℕ) (hn : ofs + n ≤ size) :
    exit.mem.loadWord ((entry.xregs 31).toNat + ofs) n =
      entry.mem.loadWord ((entry.xregs 31).toNat + ofs) n := by
  refine Mem.loadWord_congr _ _ _ _ fun k hk => ?_
  rw [Nat.add_assoc]
  exact h.caller (ofs + k) (by omega)

theorem returnTrampoline_eq {frameAddr : BitVec 64} {zcr : Option (Fin 16)} {entry exit : GuestCpu}
    (he : Entered frameAddr zcr entry) (hr : HandlerReturns (framePlan zcr).totalSize entry exit) :
    exit.returnTrampoline = some exit.behindTrampoline := by
  obtain ⟨-, htotal, -⟩ := framePlan_bounds zcr
  simp only [sizeofFrameRecord] at htotal
  have hroom := he.room
  have hpc : exit.pc.toNat = frameAddr.toNat + ((framePlan zcr).frOfs + 16) := by
    rw [hr.pc, he.lr, toNat_add_of_lt] <;> rw [toNat_ofNat] <;> omega
  have hpc4 : (exit.pc + 4).toNat = frameAddr.toNat + ((framePlan zcr).frOfs + 20) := by
    have h4 : (4 : BitVec 64).toNat = 4 := rfl
    rw [toNat_add_of_lt] <;> rw [hpc, h4] <;> omega
  have hmov : exit.mem.loadWord exit.pc.toNat 4 = trampMov.toNat := by
    rw [hpc, ← he.mov, ← he.sp]
    exact hr.loadWord _ _ (by omega)
  have hsvc : exit.mem.loadWord (exit.pc + 4).toNat 4 = trampSvc.toNat := by
    rw [hpc4, ← he.svc, ← he.sp]
    exact hr.loadWord _ _ (by omega)
  rw [returnTrampoline, stepTramp_mov exit hmov, Option.bind_some,
    stepTramp_svc { exit.setReg 8 139 with pc := exit.pc + 4 } hsvc]
  have hadd : exit.pc + 4 + 4 = exit.pc + 8 := add_assoc _ _ _
  simp only [hadd, behindTrampoline, setReg]

theorem toNat_alignDown (x : BitVec 64) : (x &&& ~~~(15 : BitVec 64)).toNat = x.toNat / 16 * 16 := by
  have hx : x &&& ~~~(15 : BitVec 64) = x >>> 4 <<< 4 := by
    refine eq_of_getLsbD_eq fun i hi => ?_
    have h15 : (~~~(15 : BitVec 64)).getLsbD i = !decide (i < 4) := by
      interval_cases i <;> rfl
    rw [getLsbD_and, h15, getLsbD_shiftLeft, getLsbD_ushiftRight]
    by_cases h4 : i < 4
    · simp [h4]
    · simp [h4, hi, show 4 + (i - 4) = i by omega]
  have := x.isLt
  rw [hx, toNat_shiftLeft, toNat_ushiftRight, Nat.shiftRight_eq_div_pow,
    Nat.shiftLeft_eq]
  omega

/-- Without an alternate stack the frame is below the interrupted stack pointer. -/
theorem getSigframe_ne (halt : cpu.altstackSize = 0) :
    cpu.getSigframe ka (framePlan cpu.zcr).totalSize ≠ cpu.xregs 31 := by
  obtain ⟨hfr, htotal, hsmall⟩ := framePlan_bounds cpu.zcr
  simp only [sizeofRtSigframe, sizeofFrameRecord] at hfr htotal
  have hsigsp : cpu.targetSigsp (cpu.xregs 31) ka = cpu.xregs 31 := by
    simp [targetSigsp, sasSsFlags, halt]
  intro h
  rw [getSigframe, hsigsp] at h
  have hnat := congrArg BitVec.toNat h
  rw [toNat_alignDown, toNat_sub, toNat_ofNat] at hnat
  have := (cpu.xregs 31).isLt
  omega

end GuestCpu

open GuestCpu

def countingExit (before entry : GuestCpu) : GuestCpu :=
  { entry.setReg 1 (before.xregs 1 + 1) with pc := entry.xregs 30 }

theorem countingExit_returns (before entry : GuestCpu) (size : ℕ) :
    HandlerReturns size entry (countingExit before entry) := by
  have hregs : ∀ n, n ≠ 1 → (countingExit before entry).xregs n = entry.xregs n := fun n hn =>
    Function.update_of_ne hn _ _
  exact ⟨rfl, fun n hn _ => hregs n (by omega), hregs 31 (by decide), fun _ _ _ => rfl, fun _ _ => rfl⟩

theorem not_resumes_countingExit {cpu entry : GuestCpu} {frameAddr : BitVec 64}
    (he : Entered frameAddr cpu.zcr entry) : ¬ cpu.Resumes (countingExit cpu entry) := by
  rintro ⟨after, hafter, hsame⟩
  rw [returnTrampoline_eq he (countingExit_returns cpu entry _)] at hafter
  injection hafter with hafter
  have hx1 := hsame.xregs 1 (by decide)
  rw [← hafter, behindTrampoline_xregs _ 1 (by decide) (by decide)] at hx1
  have hone : cpu.xregs 1 + 1 = cpu.xregs 1 := hx1
  simp at hone

theorem not_resumes_of_frame_ne {cpu entry exit : GuestCpu} {frameAddr : BitVec 64}
    (he : Entered frameAddr cpu.zcr entry) (hne : frameAddr ≠ cpu.xregs 31)
    (hr : HandlerReturns (framePlan cpu.zcr).totalSize entry exit) : ¬ cpu.Resumes exit := by
  rintro ⟨after, hafter, hsame⟩
  rw [returnTrampoline_eq he hr] at hafter
  injection hafter with hafter
  have hsp := hsame.xregs 31 (by decide)
  rw [← hafter, behindTrampoline_xregs _ 31 (by decide) (by decide), hr.sp, he.sp] at hsp
  exact hne hsp

def idleCpu : GuestCpu where
  xregs n := if n = 31 then 0x100000 else 0
  pc := 0x4000
  pstate := 0
  fpsr := 0
  fpcr := 0
  zregs _ _ := 0
  pregs _ _ := 0
  zcr := none
  faultAddress := 0
  altstackSp := 0
  altstackSize := 0
  signalMask := 0
  sigsuspendMask := 0
  inSigsuspend := false
  pageWritable _ := true
  mem _ := 0

theorem idleCpu_deliver :
    ∃ entry, idleCpu.deliver 30 { handler := .code 0x8000 } 0x8000 ⟨[], by simp⟩ = some entry := ⟨_, rfl⟩

def plainExit (entry : GuestCpu) : GuestCpu := { entry with pc := entry.xregs 30 }

theorem plainExit_returns (entry : GuestCpu) (size : ℕ) :
    HandlerReturns size entry (plainExit entry) :=
  ⟨rfl, fun _ _ _ => rfl, rfl, fun _ _ _ => rfl, fun _ _ => rfl⟩

end Iqemu64
