import Mathlib.Tactic

/-!
# Thread states for guest code

`myThreadGetState` answers `thread_get_state` from the emulated CPU of the thread. A buffer is a function
from the index of a 32-bit word, and the state of a flavor is written to its front.
-/

namespace Iqemu64

structure ArmEnv where
  xregs : ℕ → BitVec 64
  pc : BitVec 64
  cpsr : BitVec 32
  zregs : ℕ → ℕ → BitVec 64
  fpsr : BitVec 32
  fpcr : BitVec 32

/-- `thread_id` of a CPU in the list, with its `env_ptr`. -/
structure ListedCpu where
  threadId : ℕ
  env : ArmEnv

/-- `get_env_by_thread`, on the thread id that `GetThreadID_np` finds, or 0. -/
def getEnvByThread (cpus : List ListedCpu) (tid : ℕ) : Option ArmEnv :=
  if tid = 0 then none else (cpus.find? (·.threadId = tid)).map (·.env)

abbrev StateBuffer : Type := ℕ → BitVec 32

def StateBuffer.put (state : StateBuffer) (words : List (BitVec 32)) : StateBuffer :=
  fun i => words[i]?.getD (state i)

structure StateReply where
  success : Bool
  state : StateBuffer
  count : ℕ

def wordsOf (x : BitVec 64) : List (BitVec 32) := [x.setWidth 32, (x >>> 32).setWidth 32]

namespace ArmEnv
variable (env : ArmEnv)

/-- `arm_thread_state64_t` up to its padding. -/
def threadState64 : List (BitVec 32) :=
  (List.range 32).flatMap (fun n => wordsOf (env.xregs n)) ++ wordsOf env.pc ++ [env.cpsr]

/-- `arm_unified_thread_state_t`, with the padding that `bzero` has cleared. -/
def unifiedThreadState : List (BitVec 32) := [6, 68] ++ env.threadState64 ++ [0]

/-- `arm_neon_state64_t` up to its padding. -/
def neonState64 : List (BitVec 32) :=
  (List.range 32).flatMap (fun n => wordsOf (env.zregs n 0) ++ wordsOf (env.zregs n 1)) ++ [env.fpsr, env.fpcr]

end ArmEnv

/-- `my_thread_get_state`. `threadGetState` is the original function, and `fromGuest` says that the return
address is in translated code. -/
def myThreadGetState (threadGetState : ℤ → StateBuffer → ℕ → StateReply) (fromGuest : Bool)
    (env : Option ArmEnv) (flavor : ℤ) (state : StateBuffer) (count : ℕ) : StateReply :=
  if fromGuest = false then threadGetState flavor state count
  else match env with
  | none => threadGetState flavor state count
  | some env =>
    if flavor = 0 then
      if count < 4 then ⟨false, state, count⟩ else ⟨true, state.put [1, 2, 3, 4], 4⟩
    else if flavor = 128 then
      if count < 4 then ⟨false, state, count⟩ else ⟨true, state.put [1, 2, 7, 15], 4⟩
    else if flavor = 1 then
      if count < 70 then ⟨false, state, count⟩ else ⟨true, state.put env.unifiedThreadState, 70⟩
    else if flavor = 6 then
      if count < 68 then ⟨false, state, count⟩ else ⟨true, state.put env.threadState64, 68⟩
    else if flavor = 17 then
      -- the case has no `break` and goes on to the default one
      if count < 132 then ⟨false, state, count⟩ else ⟨false, state.put env.neonState64, 132⟩
    else ⟨false, state, count⟩

/-- The flavors that have a case, with the words and the count of their states. -/
inductive FlavorState (env : ArmEnv) : ℤ → List (BitVec 32) → ℕ → Prop
  | list : FlavorState env 0 [1, 2, 3, 4] 4
  | listNew : FlavorState env 128 [1, 2, 7, 15] 4
  | thread : FlavorState env 1 env.unifiedThreadState 70
  | thread64 : FlavorState env 6 env.threadState64 68
  | neon64 : FlavorState env 17 env.neonState64 132

def Unchanged (reply : StateReply) (state : StateBuffer) (count : ℕ) : Prop :=
  reply.success = false → reply.state = state ∧ reply.count = count

structure AllOrNothing (reply : StateReply) (env : Option ArmEnv) (flavor : ℤ) (state : StateBuffer)
    (count : ℕ) : Prop where
  failed : Unchanged reply state count
  served : ∀ e words n, env = some e → FlavorState e flavor words n → n ≤ count →
    reply = ⟨true, state.put words, n⟩

section
variable {threadGetState : ℤ → StateBuffer → ℕ → StateReply} {cpus : List ListedCpu} {tid : ℕ}
  {flavor : ℤ} {state : StateBuffer} {count : ℕ}

theorem unchanged_of_success {reply : StateReply} (h : reply.success = true) : Unchanged reply state count :=
  fun hfail => absurd (h.symm.trans hfail) (by decide)

theorem myThreadGetState_failed
    (hhost : ∀ flavor state count, Unchanged (threadGetState flavor state count) state count)
    {env : Option ArmEnv} (h : ¬ (env.isSome = true ∧ flavor = 17 ∧ 132 ≤ count)) :
    Unchanged (myThreadGetState threadGetState true env flavor state count) state count := by
  unfold myThreadGetState
  rw [if_neg (by decide)]
  cases env with
  | none => exact hhost flavor state count
  | some env =>
    by_cases hneon : flavor = 17
    · have hcount : count < 132 := not_le.mp fun hle => h ⟨rfl, hneon, hle⟩
      subst hneon
      simp [Unchanged, hcount]
    · simp only [if_neg hneon]
      split_ifs
      all_goals first | exact fun _ => ⟨rfl, rfl⟩ | exact unchanged_of_success rfl

theorem myThreadGetState_served {env : ArmEnv} {words : List (BitVec 32)} {n : ℕ} (hneon : flavor ≠ 17)
    (hflavor : FlavorState env flavor words n) (hcount : n ≤ count) :
    myThreadGetState threadGetState true (some env) flavor state count = ⟨true, state.put words, n⟩ := by
  cases hflavor with
  | neon64 => exact absurd rfl hneon
  | _ => simp [myThreadGetState, not_lt.mpr hcount]

/-- A query of guest code is all or nothing if and only if it is not for the vector registers of a known
thread with a count that suffices. -/
theorem myThreadGetState_allOrNothing_iff
    (hhost : ∀ flavor state count, Unchanged (threadGetState flavor state count) state count) :
    AllOrNothing (myThreadGetState threadGetState true (getEnvByThread cpus tid) flavor state count)
      (getEnvByThread cpus tid) flavor state count ↔
      ¬ ((getEnvByThread cpus tid).isSome = true ∧ flavor = 17 ∧ 132 ≤ count) := by
  constructor
  · rintro h ⟨hsome, rfl, hcount⟩
    obtain ⟨env, henv⟩ := Option.isSome_iff_exists.mp hsome
    have hserved := h.served env _ _ henv .neon64 hcount
    rw [henv] at hserved
    simp [myThreadGetState, not_lt.mpr hcount] at hserved
  · intro h
    refine ⟨myThreadGetState_failed hhost h, fun env words n henv hflavor hcount => ?_⟩
    rw [henv] at h ⊢
    refine myThreadGetState_served (fun hneon => h ⟨rfl, hneon, ?_⟩) hflavor hcount
    subst hneon
    cases hflavor
    exact hcount

end

def zeroEnv : ArmEnv := ⟨fun _ => 0, 0, 0, fun _ _ => 0, 0, 0⟩

theorem myThreadGetState_thread64 :
    getEnvByThread [⟨7, zeroEnv⟩] 7 = some zeroEnv ∧
    AllOrNothing (myThreadGetState (fun _ state count => ⟨false, state, count⟩) true
      (getEnvByThread [⟨7, zeroEnv⟩] 7) 6 (fun _ => 0) 68) (getEnvByThread [⟨7, zeroEnv⟩] 7) 6 (fun _ => 0) 68 :=
  ⟨rfl, (myThreadGetState_allOrNothing_iff fun _ _ _ _ => ⟨rfl, rfl⟩).mpr fun h => absurd h.2.1 (by decide)⟩

/-- The vector registers are written, and the reply is an error. -/
theorem myThreadGetState_neon64 : ∃ reply,
    myThreadGetState (fun _ state count => ⟨false, state, count⟩) true (getEnvByThread [⟨7, zeroEnv⟩] 7) 17
      (fun _ => 1) 140 = reply ∧ reply.success = false ∧ reply.state 0 ≠ 1 ∧ reply.count ≠ 140 :=
  ⟨_, rfl, rfl, by decide, by decide⟩

end Iqemu64
