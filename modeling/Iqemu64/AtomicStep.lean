import Iqemu64.ByteMemory
import Iqemu64.Runs

/-!
# Atomic instructions and the exclusive single step

The code generated for a guest atomic leaves by `EXCP_ATOMIC` when the host cannot perform it:
`atomic_mmu_lookup` refuses a misaligned address, and without a host compare-and-swap of the width
the generator emits `exit_atomic`. `cpu_xloop` answers with `cpu_exec_step_atomic`, which runs one
block while no other thread executes.

Every generator has a second, non-atomic variant, chosen by the `CF_PARALLEL` flag of the block. In
this tree the test is replaced by the constant 1, and a block is looked up by its pc alone.
-/

open ByteMemory Runs

namespace Iqemu64
open Function

/-- What the host and the guest's address tagging fix: `CONFIG_ATOMIC64`, `HAVE_CMPXCHG128` and
`clean_data_tbi`. -/
structure AtomicHost where
  atomic64 : Bool
  cmpxchg128 : Bool
  cleanDataTbi : BitVec 64 → BitVec 64

/-- The guest state that atomics touch. Entry 31 of `xregs` is the stack pointer. -/
structure MonitorState where
  xregs : Fin 32 → BitVec 64
  pc : BitVec 64
  mem : Mem
  exclusiveAddr : BitVec 64
  exclusiveVal : BitVec 64
  exclusiveHigh : BitVec 64

namespace MonitorState

def cpuReg (g : MonitorState) (r : Fin 32) : BitVec 64 := if r = 31 then 0 else g.xregs r

def cpuRegSp (g : MonitorState) (r : Fin 32) : BitVec 64 := g.xregs r

def setXreg (g : MonitorState) (r : Fin 32) (v : BitVec 64) : MonitorState :=
  { g with xregs := update g.xregs r v }

def setCpuReg (g : MonitorState) (r : Fin 32) (v : BitVec 64) : MonitorState :=
  if r = 31 then g else g.setXreg r v

def load (g : MonitorState) (haddr bytes : ℕ) : BitVec (8 * bytes) :=
  BitVec.ofNat _ (g.mem.loadWord haddr bytes)

def store (g : MonitorState) (haddr bytes : ℕ) (v : BitVec (8 * bytes)) : MonitorState :=
  { g with mem := g.mem.storeWord haddr bytes v.toNat }

end MonitorState

/-- The result of generated code that may be left by `cpu_loop_exit_atomic`; the error is the state
it was left in. -/
abbrev AtomicM (α : Type) := Except MonitorState α

def exitAtomic {α : Type} (g : MonitorState) : AtomicM α := .error g

def atomicMmuLookup (g : MonitorState) (addr : BitVec 64) (size : ℕ) : AtomicM ℕ :=
  if addr.toNat % size ≠ 0 then exitAtomic g else .ok addr.toNat

def tbParallel : Bool := true

def helperAtomicCmpxchg (g : MonitorState) (addr : BitVec 64) (bytes : ℕ)
    (cmpv newv : BitVec (8 * bytes)) : AtomicM (BitVec (8 * bytes) × MonitorState) := do
  let haddr ← atomicMmuLookup g addr bytes
  let old := g.load haddr bytes
  return (old, if old = cmpv then g.store haddr bytes newv else g)

def tcgGenAtomicCmpxchg (H : AtomicHost) (g : MonitorState) (addr cmpv newv : BitVec 64) (size : Fin 4) :
    AtomicM (BitVec 64 × MonitorState) :=
  let bytes := 2 ^ size.val
  if !tbParallel then
    -- load, select and store
    let t1 := g.load addr.toNat bytes
    let t2 := if t1 = cmpv.setWidth _ then newv.setWidth _ else t1
    .ok (t1.setWidth 64, g.store addr.toNat bytes t2)
  else if size = 3 ∧ H.atomic64 = false then exitAtomic g
  else do
    let (old, g') ← helperAtomicCmpxchg g addr bytes (cmpv.setWidth _) (newv.setWidth _)
    return (old.setWidth 64, g')

inductive AtomicOp where
  | ldadd | ldclr | ldeor | ldset | ldsmax | ldsmin | ldumax | ldumin | swp
  deriving DecidableEq, Repr

namespace AtomicOp

def apply {w : ℕ} (old val : BitVec w) : AtomicOp → BitVec w
  | ldadd => old + val
  | ldclr => old &&& val
  | ldeor => old ^^^ val
  | ldset => old ||| val
  | ldsmax => if val.slt old then old else val
  | ldsmin => if old.slt val then old else val
  | ldumax => if val.ult old then old else val
  | ldumin => if old.ult val then old else val
  | swp => val

def signed : AtomicOp → Bool
  | ldsmax | ldsmin => true
  | _ => false

def result {w : ℕ} (op : AtomicOp) (old : BitVec w) : BitVec 64 :=
  if w < 64 ∧ op.signed then (old.signExtend 32).setWidth 64 else old.setWidth 64

end AtomicOp

def helperAtomicOp (op : AtomicOp) (g : MonitorState) (addr : BitVec 64) (bytes : ℕ)
    (val : BitVec (8 * bytes)) : AtomicM (BitVec (8 * bytes) × MonitorState) := do
  let haddr ← atomicMmuLookup g addr bytes
  let old := g.load haddr bytes
  return (old, g.store haddr bytes (op.apply old val))

def tcgGenAtomicOp (H : AtomicHost) (op : AtomicOp) (g : MonitorState) (addr val : BitVec 64)
    (size : Fin 4) : AtomicM (BitVec 64 × MonitorState) :=
  let bytes := 2 ^ size.val
  if !tbParallel then
    let t1 := g.load addr.toNat bytes
    .ok (t1.setWidth 64, g.store addr.toNat bytes (op.apply t1 (val.setWidth _)))
  else if size = 3 ∧ H.atomic64 = false then exitAtomic g
  else do
    let (old, g') ← helperAtomicOp op g addr bytes (val.setWidth _)
    return (op.result old, g')

def make128 (lo hi : BitVec 64) : BitVec 128 := hi ++ lo

def concat32 (lo hi : BitVec 64) : BitVec 64 := hi.setWidth 32 ++ lo.setWidth 32

/-- The atomic instructions of the guest. `size` is the logarithm of the access size; a pair is of
32-bit or, if `wide`, of 64-bit words, and a `casp` has even `rs` and `rt`. -/
inductive AtomicInsn where
  | ldAtomic (op : AtomicOp) (size : Fin 4) (rs rn rt : Fin 32)
  | cas (size : Fin 4) (rs rt rn : Fin 32)
  | casp (wide : Bool) (rs rt rn : Fin 32)
  | stxr (size : Fin 4) (rd rt rn : Fin 32)
  | stxp (wide : Bool) (rd rt rt2 rn : Fin 32)
  deriving DecidableEq

inductive CodeEnd where
  | next (g : MonitorState)
  | requested (g : MonitorState)
  | atomic (g : MonitorState)

namespace AtomicInsn

def genLdAtomic (H : AtomicHost) (op : AtomicOp) (size : Fin 4) (rs rn rt : Fin 32) (g : MonitorState) :
    AtomicM MonitorState := do
  let tcgRs := if op = .ldclr then ~~~(g.cpuReg rs) else g.cpuReg rs
  let (ret, g') ← tcgGenAtomicOp H op g (H.cleanDataTbi (g.cpuRegSp rn)) tcgRs size
  return g'.setCpuReg rt ret

def genCompareAndSwap (H : AtomicHost) (size : Fin 4) (rs rt rn : Fin 32) (g : MonitorState) :
    AtomicM MonitorState := do
  let cleanAddr := H.cleanDataTbi (g.cpuRegSp rn)
  let (ret, g') ← tcgGenAtomicCmpxchg H g cleanAddr (g.cpuReg rs) (g.cpuReg rt) size
  return g'.setCpuReg rs ret

def helperCaspParallel (rs : Fin 32) (addr newLo newHi : BitVec 64) (g : MonitorState) :
    AtomicM MonitorState := do
  let cmpv := make128 (g.xregs rs) (g.xregs (rs + 1))
  let (old, g') ← helperAtomicCmpxchg g addr 16 cmpv (make128 newLo newHi)
  return (g'.setXreg rs (old.setWidth 64)).setXreg (rs + 1) ((old >>> 64).setWidth 64)

def genCompareAndSwapPair (H : AtomicHost) (wide : Bool) (rs rt rn : Fin 32) (g : MonitorState) :
    AtomicM MonitorState :=
  let cleanAddr := H.cleanDataTbi (g.cpuRegSp rn)
  if wide = false then do
    let (cmp, g') ← tcgGenAtomicCmpxchg H g cleanAddr (concat32 (g.cpuReg rs) (g.cpuReg (rs + 1)))
      (concat32 (g.cpuReg rt) (g.cpuReg (rt + 1))) 3
    return (g'.setCpuReg rs ((cmp.setWidth 32).setWidth 64)).setCpuReg (rs + 1) (cmp >>> 32)
  else if tbParallel then
    if H.cmpxchg128 then helperCaspParallel rs cleanAddr (g.cpuReg rt) (g.cpuReg (rt + 1)) g
    else exitAtomic g
  else
    let d1 := g.load cleanAddr.toNat 8
    let d2 := g.load (cleanAddr + 8).toNat 8
    let same := d1 = g.cpuReg rs ∧ d2 = g.cpuReg (rs + 1)
    let g1 := g.store cleanAddr.toNat 8 (if same then g.cpuReg rt else d1)
    let g2 := g1.store (cleanAddr + 8).toNat 8 (if same then g.cpuReg (rt + 1) else d2)
    .ok ((g2.setCpuReg rs d1).setCpuReg (rs + 1) d2)

def setcondNe {w : ℕ} (a b : BitVec w) : BitVec 64 := if a = b then 0 else 1

def helperPairedCmpxchg64Parallel (newLo newHi : BitVec 64) (g : MonitorState) :
    AtomicM (BitVec 64 × MonitorState) := do
  let cmpv := make128 g.exclusiveVal g.exclusiveHigh
  let (old, g') ← helperAtomicCmpxchg g g.exclusiveAddr 16 cmpv (make128 newLo newHi)
  return (setcondNe old cmpv, g')

def helperPairedCmpxchg64 (newLo newHi : BitVec 64) (g : MonitorState) : BitVec 64 × MonitorState :=
  let cmpv := make128 g.exclusiveVal g.exclusiveHigh
  let old := g.load g.exclusiveAddr.toNat 16
  (setcondNe old cmpv, if old = cmpv then g.store g.exclusiveAddr.toNat 16 (make128 newLo newHi) else g)

def genStoreExclusiveTry (H : AtomicHost) (g : MonitorState) : AtomicInsn → AtomicM (BitVec 64 × MonitorState)
  | stxr size _ rt _ => do
    let (old, g') ← tcgGenAtomicCmpxchg H g g.exclusiveAddr g.exclusiveVal (g.cpuReg rt) size
    return (setcondNe old g.exclusiveVal, g')
  | stxp false _ rt rt2 _ => do
    let (old, g') ← tcgGenAtomicCmpxchg H g g.exclusiveAddr g.exclusiveVal
      (concat32 (g.cpuReg rt) (g.cpuReg rt2)) 3
    return (setcondNe old g.exclusiveVal, g')
  | stxp true _ rt rt2 _ =>
    if tbParallel then
      if H.cmpxchg128 then helperPairedCmpxchg64Parallel (g.cpuReg rt) (g.cpuReg rt2) g
      else exitAtomic g
    else .ok (helperPairedCmpxchg64 (g.cpuReg rt) (g.cpuReg rt2) g)
  | _ => exitAtomic g

def genStoreExclusive (H : AtomicHost) (i : AtomicInsn) (rd rn : Fin 32) (g : MonitorState) :
    AtomicM MonitorState :=
  if H.cleanDataTbi (g.cpuRegSp rn) ≠ g.exclusiveAddr then
    .ok { g.setCpuReg rd 1 with exclusiveAddr := BitVec.allOnes 64 }
  else do
    let (tmp, g') ← i.genStoreExclusiveTry H g
    return { g'.setCpuReg rd tmp with exclusiveAddr := BitVec.allOnes 64 }

def noReturn (H : AtomicHost) : AtomicInsn → Bool
  | casp true _ _ _ => !H.cmpxchg128
  | stxp true _ _ _ _ => !H.cmpxchg128
  | _ => false

def isStoreExclusive : AtomicInsn → Bool
  | stxr .. => true
  | stxp .. => true
  | _ => false

def code (H : AtomicHost) (g : MonitorState) : AtomicInsn → AtomicM MonitorState
  | ldAtomic op size rs rn rt => genLdAtomic H op size rs rn rt g
  | cas size rs rt rn => genCompareAndSwap H size rs rt rn g
  | casp wide rs rt rn => genCompareAndSwapPair H wide rs rt rn g
  | stxr size rd rt rn => genStoreExclusive H (stxr size rd rt rn) rd rn g
  | stxp wide rd rt rt2 rn => genStoreExclusive H (stxp wide rd rt rt2 rn) rd rn g

/-- Executing the code. Code that the generator did not expect to return falls into the end of the
block. -/
def exec (H : AtomicHost) (i : AtomicInsn) (g : MonitorState) : CodeEnd :=
  match i.code H g with
  | .ok g' => if i.noReturn H then .requested g' else .next { g' with pc := g.pc + 4 }
  | .error g' => .atomic g'

/-- The instruction leaves translated code with `EXCP_ATOMIC`. -/
def Leaves (H : AtomicHost) (i : AtomicInsn) (g : MonitorState) : Prop := ∃ g', i.exec H g = .atomic g'


end AtomicInsn

def AtomicHost.Refuses (H : AtomicHost) (addr : BitVec 64) (size : Fin 4) : Prop :=
  (size = 3 ∧ H.atomic64 = false) ∨ addr.toNat % 2 ^ size.val ≠ 0

def AtomicHost.Refuses128 (H : AtomicHost) (addr : BitVec 64) : Prop :=
  H.cmpxchg128 = false ∨ addr.toNat % 16 ≠ 0

def AtomicInsn.Refused (H : AtomicHost) (g : MonitorState) : AtomicInsn → Prop
  | ldAtomic _ size _ rn _ => H.Refuses (H.cleanDataTbi (g.xregs rn)) size
  | cas size _ _ rn => H.Refuses (H.cleanDataTbi (g.xregs rn)) size
  | casp false _ _ rn => H.Refuses (H.cleanDataTbi (g.xregs rn)) 3
  | casp true _ _ rn => H.Refuses128 (H.cleanDataTbi (g.xregs rn))
  | stxr size _ _ rn => H.cleanDataTbi (g.xregs rn) = g.exclusiveAddr ∧ H.Refuses g.exclusiveAddr size
  | stxp false _ _ _ rn => H.cleanDataTbi (g.xregs rn) = g.exclusiveAddr ∧ H.Refuses g.exclusiveAddr 3
  | stxp true _ _ _ rn => H.cleanDataTbi (g.xregs rn) = g.exclusiveAddr ∧ H.Refuses128 g.exclusiveAddr

section Exits

variable {H : AtomicHost} {g g' : MonitorState}

theorem bind_pure_error_iff {α β : Type} (x : AtomicM α) (f : α → β) :
    (x >>= fun a => pure (f a)) = .error g' ↔ x = .error g' := by
  cases x <;> simp [bind, Except.bind, pure, Except.pure]

theorem atomicMmuLookup_error_iff {addr : BitVec 64} {size : ℕ} :
    atomicMmuLookup g addr size = .error g' ↔ g' = g ∧ addr.toNat % size ≠ 0 := by
  unfold atomicMmuLookup exitAtomic
  split <;> simp_all [eq_comm]

theorem helperAtomicCmpxchg_error_iff {addr : BitVec 64} {bytes : ℕ} {cmpv newv : BitVec (8 * bytes)} :
    helperAtomicCmpxchg g addr bytes cmpv newv = .error g' ↔ g' = g ∧ addr.toNat % bytes ≠ 0 := by
  rw [helperAtomicCmpxchg, bind_pure_error_iff, atomicMmuLookup_error_iff]

theorem tcgGenAtomicCmpxchg_error_iff {addr cmpv newv : BitVec 64} {size : Fin 4} :
    tcgGenAtomicCmpxchg H g addr cmpv newv size = .error g' ↔ g' = g ∧ H.Refuses addr size := by
  by_cases hsize : size = 3 ∧ H.atomic64 = false
  · simp [tcgGenAtomicCmpxchg, tbParallel, hsize, exitAtomic, AtomicHost.Refuses, eq_comm]
  · simp only [tcgGenAtomicCmpxchg, tbParallel, Bool.not_true, Bool.false_eq_true, if_false, hsize,
      AtomicHost.Refuses, false_or]
    rw [bind_pure_error_iff, helperAtomicCmpxchg_error_iff]

theorem tcgGenAtomicOp_error_iff {op : AtomicOp} {addr val : BitVec 64} {size : Fin 4} :
    tcgGenAtomicOp H op g addr val size = .error g' ↔ g' = g ∧ H.Refuses addr size := by
  by_cases hsize : size = 3 ∧ H.atomic64 = false
  · simp [tcgGenAtomicOp, tbParallel, hsize, exitAtomic, AtomicHost.Refuses, eq_comm]
  · simp only [tcgGenAtomicOp, tbParallel, Bool.not_true, Bool.false_eq_true, if_false, hsize,
      AtomicHost.Refuses, false_or]
    rw [bind_pure_error_iff, helperAtomicOp, bind_pure_error_iff, atomicMmuLookup_error_iff]

theorem helperCaspParallel_error_iff {rs : Fin 32} {addr newLo newHi : BitVec 64} :
    AtomicInsn.helperCaspParallel rs addr newLo newHi g = .error g' ↔
      g' = g ∧ addr.toNat % 16 ≠ 0 := by
  rw [AtomicInsn.helperCaspParallel, bind_pure_error_iff, helperAtomicCmpxchg_error_iff]

theorem helperPairedCmpxchg64Parallel_error_iff {newLo newHi : BitVec 64} :
    AtomicInsn.helperPairedCmpxchg64Parallel newLo newHi g = .error g' ↔
      g' = g ∧ g.exclusiveAddr.toNat % 16 ≠ 0 := by
  rw [AtomicInsn.helperPairedCmpxchg64Parallel]
  exact (bind_pure_error_iff _ _).trans helperAtomicCmpxchg_error_iff

theorem genStoreExclusive_error_iff {i : AtomicInsn} {rd rn : Fin 32} :
    i.genStoreExclusive H rd rn g = .error g' ↔
      H.cleanDataTbi (g.xregs rn) = g.exclusiveAddr ∧ i.genStoreExclusiveTry H g = .error g' := by
  by_cases haddr : H.cleanDataTbi (g.xregs rn) = g.exclusiveAddr
  · simp only [AtomicInsn.genStoreExclusive, MonitorState.cpuRegSp, haddr, ne_eq, not_true_eq_false,
      if_false, true_and]
    rw [bind_pure_error_iff]
  · simp [AtomicInsn.genStoreExclusive, MonitorState.cpuRegSp, haddr]

/-- The code of an atomic is left in the state it was entered in, and exactly when the host refuses
the access. -/
theorem AtomicInsn.code_error_iff (i : AtomicInsn) :
    i.code H g = .error g' ↔ g' = g ∧ i.Refused H g := by
  cases i with
  | ldAtomic op size rs rn rt =>
    rw [code, genLdAtomic]
    exact (bind_pure_error_iff _ _).trans tcgGenAtomicOp_error_iff
  | cas size rs rt rn =>
    rw [code, genCompareAndSwap, bind_pure_error_iff, tcgGenAtomicCmpxchg_error_iff]
    rfl
  | casp wide rs rt rn =>
    cases wide with
    | false =>
      rw [code, genCompareAndSwapPair]
      exact (bind_pure_error_iff _ _).trans tcgGenAtomicCmpxchg_error_iff
    | true =>
      cases h128 : H.cmpxchg128 with
      | false =>
        simp [code, genCompareAndSwapPair, tbParallel, h128, exitAtomic, Refused,
          AtomicHost.Refuses128, eq_comm]
      | true =>
        simp only [code, genCompareAndSwapPair, tbParallel, h128, if_true, Bool.true_eq_false, if_false,
          Refused, AtomicHost.Refuses128, false_or]
        exact helperCaspParallel_error_iff
  | stxr size rd rt rn =>
    rw [code, genStoreExclusive_error_iff, genStoreExclusiveTry, bind_pure_error_iff,
      tcgGenAtomicCmpxchg_error_iff, Refused]
    exact and_left_comm
  | stxp wide rd rt rt2 rn =>
    rw [code, genStoreExclusive_error_iff]
    cases wide with
    | false =>
      rw [genStoreExclusiveTry, bind_pure_error_iff, tcgGenAtomicCmpxchg_error_iff, Refused]
      exact and_left_comm
    | true =>
      cases h128 : H.cmpxchg128 with
      | false =>
        simp [genStoreExclusiveTry, tbParallel, h128, exitAtomic, Refused, AtomicHost.Refuses128,
          eq_comm, and_comm]
      | true =>
        simp only [genStoreExclusiveTry, tbParallel, h128, if_true, Refused, AtomicHost.Refuses128,
          Bool.true_eq_false, false_or]
        rw [helperPairedCmpxchg64Parallel_error_iff]
        exact and_left_comm

theorem AtomicInsn.exec_of_refused {i : AtomicInsn} (h : i.Refused H g) : i.exec H g = .atomic g := by
  rw [exec, i.code_error_iff.mpr ⟨rfl, h⟩]

theorem AtomicInsn.leaves_iff {i : AtomicInsn} : i.Leaves H g ↔ i.Refused H g := by
  constructor
  · rintro ⟨g', h⟩
    rw [exec] at h
    split at h
    · split at h <;> cases h
    · next g₁ hcode => exact (i.code_error_iff.mp hcode).2
  · exact fun h => ⟨g, exec_of_refused h⟩

/-- Only a store exclusive looks at more than the registers. -/
theorem AtomicInsn.refused_congr {i : AtomicInsn} (hi : i.isStoreExclusive = false)
    (hx : g'.xregs = g.xregs) : i.Refused H g' ↔ i.Refused H g := by
  cases i with
  | ldAtomic op size rs rn rt => simp [Refused, hx]
  | cas size rs rt rn => simp [Refused, hx]
  | casp wide rs rt rn => cases wide <;> simp [Refused, hx]
  | stxr size rd rt rn => cases hi
  | stxp wide rd rt rt2 rn => cases hi

end Exits

/-- A guest instruction: an atomic, or another one with its effect, the exception it may raise and
whether it ends its block. -/
inductive GuestInsn where
  | atomic (i : AtomicInsn)
  | other (effect : MonitorState → MonitorState × Option ℕ) (last : Bool)

structure InsnBlock where
  pc : BitVec 64
  insns : List (BitVec 64 × GuestInsn)

def translatorLoop (H : AtomicHost) (program : BitVec 64 → GuestInsn) :
    BitVec 64 → ℕ → List (BitVec 64 × GuestInsn)
  | _, 0 => []
  | pc, n + 1 =>
    (pc, program pc) ::
      match program pc with
      | .atomic i => if i.noReturn H then [] else translatorLoop H program (pc + 4) n
      | .other _ last => if last then [] else translatorLoop H program (pc + 4) n

inductive BlockExit where
  | done
  | requested
  | raised (n : ℕ)
  | atomic
  deriving DecidableEq

def execInsns (H : AtomicHost) (start : BitVec 64) :
    List (BitVec 64 × GuestInsn) → MonitorState → List (BitVec 64) × BlockExit × MonitorState
  | [], g => ([], .done, g)
  | (pc, .other effect _) :: rest, g =>
    match effect g with
    | (g₁, none) =>
      let (performed, exit, g') := execInsns H start rest g₁
      (pc :: performed, exit, g')
    | (g₁, some n) => ([pc], .raised n, g₁)
  | (pc, .atomic i) :: rest, g =>
    match i.exec H g with
    | .next g₁ =>
      let (performed, exit, g') := execInsns H start rest g₁
      (pc :: performed, exit, g')
    | .requested g₁ => ([pc], .requested, { g₁ with pc := start })
    | .atomic g₁ => ([], .atomic, { g₁ with pc := pc })

def InsnBlock.cpuTbExec (H : AtomicHost) (tb : InsnBlock) (g : MonitorState) :
    List (BitVec 64) × BlockExit × MonitorState := execInsns H tb.pc tb.insns g

inductive Excp where
  | atomic
  | other (n : ℕ)
  deriving DecidableEq

structure AtomicCpu where
  guest : MonitorState
  exceptionIndex : Option Excp
  tbs : BitVec 64 → Option InsnBlock
  parallelCpus : Bool
  inExclusive : Bool

namespace AtomicCpu

def tbFind (H : AtomicHost) (program : BitVec 64 → GuestInsn) (maxInsns : ℕ) (c : AtomicCpu) :
    InsnBlock × AtomicCpu :=
  match c.tbs c.guest.pc with
  | some tb => (tb, c)
  | none =>
    let tb := ⟨c.guest.pc, translatorLoop H program c.guest.pc (maxInsns + 1)⟩
    (tb, { c with tbs := update c.tbs c.guest.pc (some tb) })

def leaveBlock (c : AtomicCpu) : BlockExit × MonitorState → AtomicCpu
  | (.atomic, g) => { c with guest := g, exceptionIndex := some .atomic }
  | (.raised n, g) => { c with guest := g, exceptionIndex := some (.other n) }
  | (.done, g) => { c with guest := g }
  | (.requested, g) => { c with guest := g }

/-- `cpu_exec_step_atomic`: the pcs of the instructions performed and the state after. -/
def cpuExecStepAtomic (H : AtomicHost) (program : BitVec 64 → GuestInsn) (maxInsns : ℕ)
    (c : AtomicCpu) : List (BitVec 64) × AtomicCpu :=
  let (tb, c) := { c with inExclusive := true }.tbFind H program maxInsns
  let (performed, exit) := tb.cpuTbExec H c.guest
  let c := { c with parallelCpus := false }.leaveBlock exit
  (performed, { c with parallelCpus := true, inExclusive := false })

def StepsOnce (H : AtomicHost) (program : BitVec 64 → GuestInsn) (maxInsns : ℕ) (c : AtomicCpu) :
    Prop :=
  (c.cpuExecStepAtomic H program maxInsns).1.count c.guest.pc = 1

def Cached (H : AtomicHost) (program : BitVec 64 → GuestInsn) (tbs : BitVec 64 → Option InsnBlock) :
    Prop :=
  ∀ pc tb, tbs pc = some tb → tb.pc = pc ∧ ∃ n, tb.insns = translatorLoop H program pc (n + 1)

inductive CpuExec (H : AtomicHost) (program : BitVec 64 → GuestInsn) :
    AtomicCpu → List (BitVec 64) → Excp → AtomicCpu → Prop
  | handled {c : AtomicCpu} {e : Excp} (h : c.exceptionIndex = some e) :
      CpuExec H program c [] e { c with exceptionIndex := none }
  | block {c c' : AtomicCpu} {maxInsns : ℕ} {tb : InsnBlock} {c₁ : AtomicCpu}
      {performed rest : List (BitVec 64)} {exit : BlockExit × MonitorState} {e : Excp}
      (h : c.exceptionIndex = none) (hfind : c.tbFind H program maxInsns = (tb, c₁))
      (hexec : tb.cpuTbExec H c₁.guest = (performed, exit))
      (hrest : CpuExec H program (c₁.leaveBlock exit) rest e c') :
      CpuExec H program c (performed ++ rest) e c'

end AtomicCpu

/-- One pass of `cpu_xloop` after `EXCP_ATOMIC`: the memory other threads have left before the step
and before the guest is entered again, what was performed, and the trap that `cpu_exec` returns. -/
structure AtomicRound where
  maxInsns : ℕ
  before : Mem
  after : Mem
  performed : List (BitVec 64)
  trap : Excp

/-- The pass: the exclusive step, the cleared monitor, and `cpu_exec`. -/
def AtomicCpu.Round (H : AtomicHost) (program : BitVec 64 → GuestInsn) (c : AtomicCpu)
    (r : AtomicRound) (c' : AtomicCpu) : Prop :=
  let step := { c with guest := { c.guest with mem := r.before } }.cpuExecStepAtomic H program r.maxInsns
  let entered := { step.2 with
    guest := { step.2.guest with mem := r.after, exclusiveAddr := BitVec.allOnes 64 } }
  ∃ rest, AtomicCpu.CpuExec H program entered rest r.trap c' ∧ r.performed = step.1 ++ rest

section Stuck

variable {H : AtomicHost} {program : BitVec 64 → GuestInsn} {c : AtomicCpu} {i : AtomicInsn}

theorem translatorLoop_succ_eq (pc : BitVec 64) (n : ℕ) :
    ∃ rest, translatorLoop H program pc (n + 1) = (pc, program pc) :: rest := ⟨_, rfl⟩

theorem AtomicCpu.tbFind_spec (hc : AtomicCpu.Cached H program c.tbs) (n : ℕ) :
    ∃ tb tbs, c.tbFind H program n = (tb, { c with tbs := tbs }) ∧
      AtomicCpu.Cached H program tbs ∧
      ∃ rest, tb.insns = (c.guest.pc, program c.guest.pc) :: rest := by
  unfold tbFind
  cases hget : c.tbs c.guest.pc with
  | some tb =>
    obtain ⟨-, n, hinsns⟩ := hc _ _ hget
    exact ⟨tb, c.tbs, rfl, hc, hinsns ▸ translatorLoop_succ_eq _ _⟩
  | none =>
    refine ⟨_, _, rfl, ?_, translatorLoop_succ_eq _ _⟩
    intro pc tb htb
    by_cases hpc : pc = c.guest.pc
    · subst hpc
      rw [update_self] at htb
      cases htb
      exact ⟨rfl, n, rfl⟩
    · rw [update_of_ne hpc] at htb
      exact hc pc tb htb

/-- The code of a refused atomic is left before anything is performed. -/
theorem InsnBlock.cpuTbExec_of_refused {tb : InsnBlock} {g : MonitorState}
    {rest : List (BitVec 64 × GuestInsn)} (htb : tb.insns = (g.pc, .atomic i) :: rest) (hi : i.Refused H g) :
    tb.cpuTbExec H g = ([], .atomic, g) := by
  rw [cpuTbExec, htb, execInsns, AtomicInsn.exec_of_refused hi]

/-- The step runs the code that has just been left, so it is left again. -/
theorem AtomicCpu.cpuExecStepAtomic_of_refused (hc : AtomicCpu.Cached H program c.tbs)
    (hprog : program c.guest.pc = .atomic i) (hi : i.Refused H c.guest) (n : ℕ) :
    ∃ tbs, c.cpuExecStepAtomic H program n = ([], { c with
        exceptionIndex := some .atomic, tbs := tbs, parallelCpus := true, inExclusive := false }) ∧
      AtomicCpu.Cached H program tbs := by
  obtain ⟨tb, tbs, hfind, hcached, rest, htb⟩ :=
    tbFind_spec (c := { c with inExclusive := true }) hc n
  rw [show ({ c with inExclusive := true } : AtomicCpu).guest = c.guest from rfl, hprog] at htb
  have hexec : tb.cpuTbExec H c.guest = ([], .atomic, c.guest) := InsnBlock.cpuTbExec_of_refused htb hi
  refine ⟨tbs, ?_, hcached⟩
  simp only [cpuExecStepAtomic, hfind, hexec, leaveBlock]

structure AtomicCpu.Caught (H : AtomicHost) (program : BitVec 64 → GuestInsn) (pc : BitVec 64)
    (xregs : Fin 32 → BitVec 64) (c : AtomicCpu) : Prop where
  cached : AtomicCpu.Cached H program c.tbs
  pc_eq : c.guest.pc = pc
  xregs_eq : c.guest.xregs = xregs

variable {pc : BitVec 64} {xregs : Fin 32 → BitVec 64} {c' : AtomicCpu} {r : AtomicRound}

/-- A pass performs nothing, and `cpu_exec` returns at once, with the exception still pending. -/
theorem AtomicCpu.Caught.round (h : c.Caught H program pc xregs) (hprog : program pc = .atomic i)
    (hex : i.isStoreExclusive = false) (hi : i.Refused H c.guest) (hr : c.Round H program r c') :
    c'.Caught H program pc xregs ∧ i.Refused H c'.guest ∧ r.performed = [] ∧ r.trap = .atomic := by
  have hi' : i.Refused H { c.guest with mem := r.before } := (AtomicInsn.refused_congr hex rfl).mpr hi
  obtain ⟨tbs, hstep, hcached⟩ := AtomicCpu.cpuExecStepAtomic_of_refused
    (c := { c with guest := { c.guest with mem := r.before } }) h.cached (h.pc_eq ▸ hprog) hi'
    r.maxInsns
  obtain ⟨rest, hexec, hperf⟩ := hr
  rw [hstep] at hexec hperf
  cases hexec with
  | handled he =>
    refine ⟨⟨hcached, h.pc_eq, h.xregs_eq⟩, ?_, hperf, (Option.some.inj he).symm⟩
    refine (AtomicInsn.refused_congr hex ?_).mpr hi
    rfl
  | block hnone => cases hnone

/-- However often the loop goes round, it stays at the atomic. -/
theorem AtomicCpu.Caught.rounds {rs : List AtomicRound} (h : c.Caught H program pc xregs)
    (hprog : program pc = .atomic i) (hex : i.isStoreExclusive = false) (hi : i.Refused H c.guest)
    (hrs : Reaches (AtomicCpu.Round H program) c rs c') :
    c'.guest.pc = pc ∧ ∀ r ∈ rs, r.performed = [] ∧ r.trap = .atomic := by
  induction hrs with
  | nil c => exact ⟨h.pc_eq, by simp⟩
  | cons hr hrest ih =>
    obtain ⟨h', hi', hnone⟩ := h.round hprog hex hi hr
    obtain ⟨hpc, hall⟩ := ih h' hi'
    exact ⟨hpc, List.forall_mem_cons.mpr ⟨hnone, hall⟩⟩

theorem AtomicCpu.Caught.exists_round (h : c.Caught H program pc xregs)
    (hprog : program pc = .atomic i) (hi : i.Refused H c.guest) :
    ∃ r c', c.Round H program r c' := by
  obtain ⟨tbs, hstep, -⟩ := AtomicCpu.cpuExecStepAtomic_of_refused h.cached (h.pc_eq ▸ hprog) hi 0
  refine ⟨⟨0, c.guest.mem, c.guest.mem, [], .atomic⟩, _, [], .handled ?_, ?_⟩
  · rw [show ({ c with guest := { c.guest with mem := c.guest.mem } } : AtomicCpu) = c from rfl, hstep]
  · rw [show ({ c with guest := { c.guest with mem := c.guest.mem } } : AtomicCpu) = c from rfl, hstep]
    rfl

theorem AtomicCpu.Caught.exists_rounds (h : c.Caught H program pc xregs)
    (hprog : program pc = .atomic i) (hex : i.isStoreExclusive = false) (hi : i.Refused H c.guest)
    (n : ℕ) : ∃ rs c', rs.length = n ∧ Reaches (AtomicCpu.Round H program) c rs c' := by
  induction n generalizing c with
  | zero => exact ⟨[], c, rfl, .nil c⟩
  | succ n ih =>
    obtain ⟨r, c₁, hr⟩ := h.exists_round hprog hi
    obtain ⟨h₁, hi₁, -⟩ := h.round hprog hex hi hr
    obtain ⟨rs, c', hlen, hrs⟩ := ih h₁ hi₁
    exact ⟨r :: rs, c', by rw [List.length_cons, hlen], .cons hr hrs⟩

end Stuck

/-- No instruction that leaves translated code with `EXCP_ATOMIC` is performed by the step that
answers it: the block looked up or generated is the one that was left, and the step ends in the same
state with the exception pending again. An atomic other than a store exclusive is met at the same pc
in every later pass of the loop too, whatever other threads write. -/
theorem AtomicCpu.cpuExecStepAtomic_never (H : AtomicHost) (program : BitVec 64 → GuestInsn)
    (maxInsns : ℕ) (c : AtomicCpu) (i : AtomicInsn) (hcached : AtomicCpu.Cached H program c.tbs)
    (hprog : program c.guest.pc = .atomic i) (hleaves : i.Leaves H c.guest) :
    ¬ c.StepsOnce H program maxInsns ∧
    (c.cpuExecStepAtomic H program maxInsns).2.guest = c.guest ∧
    (c.cpuExecStepAtomic H program maxInsns).2.exceptionIndex = some .atomic ∧
    (i.isStoreExclusive = false → ∀ rs c', Reaches (AtomicCpu.Round H program) c rs c' →
      c'.guest.pc = c.guest.pc ∧ ∀ r ∈ rs, r.performed = [] ∧ r.trap = .atomic) := by
  have hi := AtomicInsn.leaves_iff.mp hleaves
  obtain ⟨tbs, hstep, -⟩ := AtomicCpu.cpuExecStepAtomic_of_refused hcached hprog hi maxInsns
  refine ⟨?_, ?_, ?_, ?_⟩
  · intro honce
    rw [AtomicCpu.StepsOnce, hstep] at honce
    cases honce
  · rw [hstep]
  · rw [hstep]
  · intro hex rs c' hrs
    have hcaught : c.Caught H program c.guest.pc c.guest.xregs := ⟨hcached, rfl, rfl⟩
    exact hcaught.rounds hprog hex hi hrs

def fullHost : AtomicHost := ⟨true, true, id⟩

/-- `LDADD W1, W2, [X0]` at every pc. -/
def ldaddProgram (_ : BitVec 64) : GuestInsn := .atomic (.ldAtomic .ldadd 2 1 0 2)

/-- A vcpu whose `X0` is 2, with no block translated. -/
def misalignedCpu : AtomicCpu :=
  ⟨⟨update (fun _ => 0) 0 2, 0x4000, fun _ => 0, BitVec.allOnes 64, 0, 0⟩, none,
    fun _ => none, true, false⟩

theorem misalignedCpu_cached : AtomicCpu.Cached fullHost ldaddProgram misalignedCpu.tbs :=
  fun _ _ h => nomatch h

theorem misalignedCpu_refused :
    (AtomicInsn.ldAtomic .ldadd 2 1 0 2).Refused fullHost misalignedCpu.guest := .inr (by decide)

theorem AtomicCpu.cpuExecStepAtomic_never_ldadd :
    (AtomicInsn.ldAtomic .ldadd 2 1 0 2).Leaves fullHost misalignedCpu.guest ∧
    ¬ misalignedCpu.StepsOnce fullHost ldaddProgram 7 := by
  have hleaves := AtomicInsn.leaves_iff.mpr misalignedCpu_refused
  have hnever := AtomicCpu.cpuExecStepAtomic_never fullHost ldaddProgram 7 misalignedCpu _
    misalignedCpu_cached rfl hleaves
  exact ⟨hleaves, hnever.1⟩

/-- The misaligned `LDADD` is left, the step performs nothing, and the loop comes back to it any
number of times. -/
theorem AtomicCpu.misaligned_ldadd_forever :
    (AtomicInsn.ldAtomic .ldadd 2 1 0 2).exec fullHost misalignedCpu.guest =
      .atomic misalignedCpu.guest ∧
    (misalignedCpu.cpuExecStepAtomic fullHost ldaddProgram 7).1 = [] ∧
    ∀ n, ∃ rs c', rs.length = n ∧
      Reaches (AtomicCpu.Round fullHost ldaddProgram) misalignedCpu rs c' ∧
      c'.guest.pc = misalignedCpu.guest.pc ∧ ∀ r ∈ rs, r.performed = [] ∧ r.trap = .atomic := by
  have hcaught : misalignedCpu.Caught fullHost ldaddProgram 0x4000 misalignedCpu.guest.xregs :=
    ⟨misalignedCpu_cached, rfl, rfl⟩
  refine ⟨AtomicInsn.exec_of_refused misalignedCpu_refused, ?_, fun n => ?_⟩
  · obtain ⟨tbs, hstep, -⟩ := AtomicCpu.cpuExecStepAtomic_of_refused misalignedCpu_cached rfl
      misalignedCpu_refused 7
    rw [hstep]
  · obtain ⟨rs, c', hlen, hrs⟩ := hcaught.exists_rounds rfl rfl misalignedCpu_refused n
    exact ⟨rs, c', hlen, hrs, hcaught.rounds rfl rfl misalignedCpu_refused hrs⟩

end Iqemu64
