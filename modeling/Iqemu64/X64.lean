import Iqemu64.ByteMemory

/-!
# A straight-line x86-64 machine

The instructions are the ones a calling-convention bridge is made of: loads and stores of general
registers, aligned 16-byte vector moves, stack adjustment, widening of a register's low part, string
copy and calls. A program is a list of instructions without jumps. `run` fails only at an aligned
vector move whose address is not a multiple of 16, which faults on the hardware.

Called functions and the addresses of data are symbolic. An `Externals` record gives each function's
effect on the machine and each symbol's address.
-/

namespace X64
open ByteMemory BitVec

inductive Gpr where
  | rax | rcx | rdx | rbx | rsp | rbp | rsi | rdi
  | r8 | r9 | r10 | r11 | r12 | r13 | r14 | r15
  deriving DecidableEq, Repr

structure State where
  gpr : Gpr → BitVec 64
  xmm : ℕ → ℕ → UInt8
  mem : Mem

inductive Insn (F S : Type) where
  | ld (ret base : Gpr) (ofs : ℕ)
  | ld32 (ret base : Gpr) (ofs : ℕ)
  | st (arg base : Gpr) (ofs : ℕ)
  | st32 (arg base : Gpr) (ofs : ℕ)
  | mov (ret arg : Gpr)
  | movq (ret : Gpr) (arg : ℕ)
  | movqTo (ret : ℕ) (arg : Gpr)
  | movqLd (ret : ℕ) (base : Gpr) (ofs : ℕ)
  | movi (ret : Gpr) (val : ℕ)
  | movSym (ret : Gpr) (sym : S)
  | addi (reg : Gpr) (val : ℤ)
  | shr32 (reg : Gpr) (count : ℕ)
  | movx (signed : Bool) (bits : ℕ) (reg : Gpr)
  | push (reg : Gpr)
  | pop (reg : Gpr)
  | movapsLd (ret : ℕ) (base : Gpr) (ofs : ℕ)
  | movapsSt (arg : ℕ) (base : Gpr) (ofs : ℕ)
  | repMovsb
  | call (f : F)

structure Externals (F S : Type) where
  ext : F → State → State
  addr : S → ℕ

namespace State

def setGpr (s : State) (r : Gpr) (v : BitVec 64) : State :=
  { s with gpr := Function.update s.gpr r v }

def setXmm (s : State) (x : ℕ) (f : ℕ → UInt8) : State :=
  { s with xmm := Function.update s.xmm x f }

def setMem (s : State) (m : Mem) : State := { s with mem := m }

def ea (s : State) (base : Gpr) (ofs : ℕ) : ℕ := (s.gpr base).toNat + ofs

def gprByte (s : State) (r : Gpr) (k : ℕ) : UInt8 := byteAt (s.gpr r).toNat k

@[simp] theorem setGpr_gpr_same (s : State) (r : Gpr) (v : BitVec 64) : (s.setGpr r v).gpr r = v := by
  simp [setGpr]

theorem setGpr_gpr_ne (s : State) {r q : Gpr} (v : BitVec 64) (h : q ≠ r) :
    (s.setGpr r v).gpr q = s.gpr q := by
  simp [setGpr, h]

@[simp] theorem setGpr_gpr (s : State) (r q : Gpr) (v : BitVec 64) :
    (s.setGpr r v).gpr q = if q = r then v else s.gpr q := by
  by_cases h : q = r
  · subst h
    simp
  · rw [setGpr_gpr_ne s v h, if_neg h]

@[simp] theorem setGpr_xmm (s : State) (r : Gpr) (v : BitVec 64) : (s.setGpr r v).xmm = s.xmm := rfl

@[simp] theorem setGpr_mem (s : State) (r : Gpr) (v : BitVec 64) : (s.setGpr r v).mem = s.mem := rfl

@[simp] theorem setXmm_gpr (s : State) (x : ℕ) (f : ℕ → UInt8) : (s.setXmm x f).gpr = s.gpr := rfl

@[simp] theorem setXmm_xmm (s : State) (x y : ℕ) (f : ℕ → UInt8) :
    (s.setXmm x f).xmm y = if y = x then f else s.xmm y := by
  by_cases h : y = x
  · subst h
    simp [setXmm]
  · simp [setXmm, h]

@[simp] theorem setXmm_mem (s : State) (x : ℕ) (f : ℕ → UInt8) : (s.setXmm x f).mem = s.mem := rfl

@[simp] theorem setMem_gpr (s : State) (m : Mem) : (s.setMem m).gpr = s.gpr := rfl

@[simp] theorem setMem_xmm (s : State) (m : Mem) : (s.setMem m).xmm = s.xmm := rfl

@[simp] theorem setMem_mem (s : State) (m : Mem) : (s.setMem m).mem = m := rfl

@[simp] theorem setMem_setMem (s : State) (m m' : Mem) : (s.setMem m).setMem m' = s.setMem m' := rfl

@[simp] theorem setGpr_setMem (s : State) (r : Gpr) (v : BitVec 64) (m : Mem) :
    (s.setGpr r v).setMem m = (s.setMem m).setGpr r v := rfl

@[simp] theorem setGpr_setGpr (s : State) (r : Gpr) (v w : BitVec 64) :
    (s.setGpr r v).setGpr r w = s.setGpr r w := by
  simp [setGpr]

@[simp] theorem setGpr_self (s : State) (r : Gpr) : s.setGpr r (s.gpr r) = s := by
  simp [setGpr]

end State

theorem toNat_add_ofInt (v : BitVec 64) {n : ℕ} (h : v.toNat + n < 2 ^ 64) :
    (v + BitVec.ofInt 64 n).toNat = v.toNat + n := by
  rw [ofInt_natCast, toNat_add, toNat_ofNat,
    Nat.mod_eq_of_lt (show n < 2 ^ 64 by omega), Nat.mod_eq_of_lt h]

theorem toNat_add_ofInt_neg (v : BitVec 64) {n : ℕ} (h : n ≤ v.toNat) :
    (v + BitVec.ofInt 64 (-n)).toNat = v.toNat - n := by
  rw [ofInt_neg, ← sub_eq_add_neg, ofInt_natCast, toNat_sub_of_le,
    toNat_ofNat, Nat.mod_eq_of_lt (by omega)]
  rw [le_def, toNat_ofNat, Nat.mod_eq_of_lt (by omega)]
  exact h

namespace Insn

variable {F S : Type} (E : Externals F S)

def step : Insn F S → State → Option State
  | .ld ret base ofs, s => some (s.setGpr ret (BitVec.ofNat 64 (s.mem.loadWord (s.ea base ofs) 8)))
  | .ld32 ret base ofs, s => some (s.setGpr ret (BitVec.ofNat 64 (s.mem.loadWord (s.ea base ofs) 4)))
  | .st arg base ofs, s => some (s.setMem (s.mem.storeWord (s.ea base ofs) 8 (s.gpr arg).toNat))
  | .st32 arg base ofs, s => some (s.setMem (s.mem.storeWord (s.ea base ofs) 4 (s.gpr arg).toNat))
  | .mov ret arg, s => some (s.setGpr ret (s.gpr arg))
  | .movq ret arg, s => some (s.setGpr ret (BitVec.ofNat 64 (leWord 8 (s.xmm arg))))
  | .movqTo ret arg, s => some (s.setXmm ret (fun k => if k < 8 then s.gprByte arg k else 0))
  | .movqLd ret base ofs, s =>
      some (s.setXmm ret (fun k => if k < 8 then s.mem (s.ea base ofs + k) else 0))
  | .movi ret val, s => some (s.setGpr ret (BitVec.ofNat 64 val))
  | .movSym ret sym, s => some (s.setGpr ret (BitVec.ofNat 64 (E.addr sym)))
  | .addi reg val, s => some (s.setGpr reg (s.gpr reg + BitVec.ofInt 64 val))
  | .shr32 reg count, s =>
      -- the hardware masks the count to five bits
      some (s.setGpr reg (((s.gpr reg).setWidth 32 >>> (count % 32)).setWidth 64))
  | .movx signed bits reg, s => some (s.setGpr reg (widen signed bits (s.gpr reg)))
  | .push reg, s =>
      let top := s.gpr .rsp - 8
      some ((s.setMem (s.mem.storeWord top.toNat 8 (s.gpr reg).toNat)).setGpr .rsp top)
  | .pop reg, s =>
      let top := s.gpr .rsp
      some ((s.setGpr .rsp (top + 8)).setGpr reg (BitVec.ofNat 64 (s.mem.loadWord top.toNat 8)))
  | .movapsLd ret base ofs, s =>
      let a := s.ea base ofs
      if a % 16 = 0 then some (s.setXmm ret (fun k => s.mem (a + k))) else none
  | .movapsSt arg base ofs, s =>
      let a := s.ea base ofs
      if a % 16 = 0 then some (s.setMem (s.mem.write a 16 (s.xmm arg))) else none
  | .repMovsb, s =>
      let n := s.gpr .rcx
      some ((((s.setMem (s.mem.copyForward (s.gpr .rdi).toNat (s.gpr .rsi).toNat n.toNat)).setGpr
        .rdi (s.gpr .rdi + n)).setGpr .rsi (s.gpr .rsi + n)).setGpr .rcx 0)
  | .call f, s => some (E.ext f s)

def alignedAddr : Insn F S → State → Option ℕ
  | .movapsLd _ base ofs, s => some (s.ea base ofs)
  | .movapsSt _ base ofs, s => some (s.ea base ofs)
  | _, _ => none

theorem step_ne_none_iff (i : Insn F S) (s : State) :
    i.step E s ≠ none ↔ ∀ a, i.alignedAddr s = some a → a % 16 = 0 := by
  cases i <;> simp [step, alignedAddr]

end Insn

section Run
variable {F S : Type} (E : Externals F S)

def run : List (Insn F S) → State → Option State
  | [], s => some s
  | i :: code, s => (i.step E s).bind (run code)

@[simp] theorem run_nil (s : State) : run E [] s = some s := rfl

theorem run_cons (i : Insn F S) (code : List (Insn F S)) (s : State) :
    run E (i :: code) s = (i.step E s).bind (run E code) := rfl

theorem run_append (c₁ c₂ : List (Insn F S)) (s : State) :
    run E (c₁ ++ c₂) s = (run E c₁ s).bind (run E c₂) := by
  induction c₁ generalizing s with
  | nil => rfl
  | cons i code ih =>
    simp only [List.cons_append, run_cons]
    cases i.step E s with
    | none => rfl
    | some t => exact ih t

theorem run_append_some {c₁ c₂ : List (Insn F S)} {s t : State} (h : run E c₁ s = some t) :
    run E (c₁ ++ c₂) s = run E c₂ t := by
  rw [run_append, h]
  rfl

/-- Every aligned vector access that the program reaches is at a multiple of 16. -/
def AlignedAccesses (code : List (Insn F S)) (s : State) : Prop :=
  ∀ before i after t a, code = before ++ i :: after → run E before s = some t →
    i.alignedAddr t = some a → a % 16 = 0

theorem alignedAccesses_cons (i : Insn F S) (code : List (Insn F S)) (s : State) :
    AlignedAccesses E (i :: code) s ↔
      (∀ a, i.alignedAddr s = some a → a % 16 = 0) ∧
        ∀ t, i.step E s = some t → AlignedAccesses E code t := by
  constructor
  · intro h
    refine ⟨fun a ha => h [] i code s a rfl rfl ha, ?_⟩
    intro t ht before j after u a hcode hrun ha
    apply h (i :: before) j after u a (by rw [hcode]; rfl) _ ha
    rw [run_cons, ht]
    exact hrun
  · rintro ⟨hi, hrest⟩ before j after u a hcode hrun ha
    cases before with
    | nil =>
      obtain ⟨rfl, rfl⟩ := List.cons.inj hcode
      cases hrun
      exact hi a ha
    | cons k before =>
      obtain ⟨rfl, htail⟩ := List.cons.inj hcode
      rw [run_cons] at hrun
      cases ht : i.step E s with
      | none => rw [ht] at hrun; cases hrun
      | some t =>
        rw [ht] at hrun
        exact hrest t ht before j after u a htail hrun ha

/-- A program runs to its end exactly when all its aligned accesses are aligned. -/
theorem run_ne_none_iff (code : List (Insn F S)) (s : State) :
    run E code s ≠ none ↔ AlignedAccesses E code s := by
  induction code generalizing s with
  | nil =>
    refine ⟨fun _ before i after t a hcode => ?_, fun _ => by simp⟩
    cases before <;> cases hcode
  | cons i code ih =>
    rw [alignedAccesses_cons, ← i.step_ne_none_iff E s, run_cons]
    cases ht : i.step E s with
    | none => simp
    | some t => simpa using ih t

end Run

end X64
