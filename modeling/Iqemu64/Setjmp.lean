import Mathlib.Data.BitVec
import Mathlib.Data.List.Nodup
import Mathlib.Logic.Function.Basic

/-!
# Nonlocal jumps

`setjmp` and `sigsetjmp` save the callee-saved registers and the signal mask in the buffer, at offsets
in bytes that are turned into word indices by `>> 3`. `longjmp` and `siglongjmp` read the registers at
the same indices, but the mask and its flag at the offsets `>> 2`.
-/

namespace Iqemu64
open List Function

/-- The part of the CPU and task state that a nonlocal jump uses. `xregs 31` is the stack pointer,
`zregs i j` is `zregs[i].d[j]`. -/
structure JmpState where
  pc : BitVec 64
  xregs : ℕ → BitVec 64
  zregs : ℕ → ℕ → BitVec 64
  signalMask : BitVec 32

/-- `setjmp` with `longjmp`, or `sigsetjmp` with `siglongjmp`. -/
inductive JmpKind where
  | plain | sig
  deriving DecidableEq

abbrev JmpBuf := ℕ → BitVec 64

def jmpR19R20 : ℕ := 0x00
def jmpD8D9 : ℕ := 0x70
def jmpSig : ℕ := 0xB0
def jmpSigflag : ℕ := 0xB8

def storeMask (w : BitVec 64) (mask : BitVec 32) : BitVec 64 := w.extractLsb' 32 32 ++ mask

def loadMask (w : BitVec 64) : BitVec 32 := w.setWidth 32

def withoutKillStop (mask : BitVec 32) : BitVec 32 := mask &&& ~~~((1 : BitVec 32) <<< 8 ||| (1 : BitVec 32) <<< 16)

def JmpBuf.store (buf : JmpBuf) : List (ℕ × BitVec 64) → JmpBuf
  | [] => buf
  | (i, v) :: rest => JmpBuf.store (update buf i v) rest

namespace JmpState

def armSetjmp (env : JmpState) : List (ℕ × BitVec 64) :=
  ((range 13).map fun i => ((jmpR19R20 >>> 3) + i, env.xregs (19 + i))) ++
    (range 8).map fun i => ((jmpD8D9 >>> 3) + i, env.zregs (8 + i) 0)

/-- What `arm_setjmp` and `arm_sigsetjmp` write. The flag of `sigsetjmp` is in `x1`. -/
def setjmpStores (env : JmpState) (kind : JmpKind) (buf : JmpBuf) : List (ℕ × BitVec 64) :=
  let sigmask : BitVec 32 := (env.xregs 1).setWidth 32
  let saveMask := [(jmpSig >>> 3, storeMask (buf (jmpSig >>> 3)) env.signalMask)]
  match kind with
  | .plain => saveMask ++ env.armSetjmp
  | .sig => (jmpSigflag >>> 3, sigmask.signExtend 64) ::
      ((if sigmask ≠ 0 then saveMask else []) ++ env.armSetjmp)

/-- `call_arm_setjmp` and `call_arm_sigsetjmp`. -/
def callSetjmp (env : JmpState) (kind : JmpKind) (buf : JmpBuf) : JmpState × JmpBuf :=
  ({ env with xregs := update env.xregs 0 0, pc := env.xregs 30 },
    buf.store (env.setjmpStores kind buf))

def armLongjmp (env : JmpState) (buf : JmpBuf) (retVal : BitVec 32) : JmpState :=
  let xregs i :=
    if 19 ≤ i ∧ i < 32 then buf ((jmpR19R20 >>> 3) + (i - 19)) else env.xregs i
  { env with
    xregs := update xregs 0 ((if retVal = 0 then 1 else retVal).signExtend 64)
    zregs := fun i j =>
      if 8 ≤ i ∧ i < 16 ∧ j = 0 then buf ((jmpD8D9 >>> 3) + (i - 8)) else env.zregs i j
    pc := xregs 30 }

def setSigmask (env : JmpState) (set : BitVec 32) : JmpState :=
  { env with signalMask := withoutKillStop set }

def restoreMask (env : JmpState) (kind : JmpKind) (buf : JmpBuf) : JmpState :=
  match kind with
  | .plain => env.setSigmask (loadMask (buf (jmpSig >>> 2)))
  | .sig =>
    if buf (jmpSigflag >>> 2) ≠ 0 then env.setSigmask (loadMask (buf (jmpSig >>> 2))) else env

/-- `call_arm_longjmp` and `call_arm_siglongjmp`. The value is in `x1`. -/
def callLongjmp (env : JmpState) (kind : JmpKind) (buf : JmpBuf) : JmpState :=
  (env.restoreMask kind buf).armLongjmp buf ((env.xregs 1).setWidth 32)

/-- `after` is what a jump from `env` has to make of the state that `saved` was at the `setjmp`. -/
structure Restored (saved env after : JmpState) : Prop where
  xregs : ∀ i, 19 ≤ i → i < 32 → after.xregs i = saved.xregs i
  vectors : ∀ i, 8 ≤ i → i < 16 → after.zregs i 0 = saved.zregs i 0
  signalMask : after.signalMask = saved.signalMask
  pc : after.pc = saved.xregs 30
  result : after.xregs 0 = (let v : BitVec 32 := (env.xregs 1).setWidth 32
    if v = 0 then 1 else v.signExtend 64)
  others : ∀ i j, i < 8 ∨ 16 ≤ i → after.zregs i j = env.zregs i j

/-- The words that the jump takes the mask from hold the mask of the `setjmp`, or it takes none and the
mask has not changed. -/
def MaskFound (saved env : JmpState) (kind : JmpKind) (buf : JmpBuf) : Prop :=
  match kind with
  | .plain => withoutKillStop (loadMask (buf 44)) = saved.signalMask
  | .sig => if buf 46 = 0 then env.signalMask = saved.signalMask
      else withoutKillStop (loadMask (buf 44)) = saved.signalMask

end JmpState

/-- The result is determined by the words in `words`. -/
def ReadsOnly {α : Type} (f : JmpBuf → α) (words : List ℕ) : Prop :=
  ∀ buf buf', (∀ i ∈ words, buf i = buf' i) → f buf = f buf'

/-! ### The buffer -/

theorem JmpBuf.store_of_not_mem (buf : JmpBuf) {ws : List (ℕ × BitVec 64)} {i : ℕ}
    (hi : i ∉ ws.map Prod.fst) : buf.store ws i = buf i := by
  induction ws generalizing buf with
  | nil => rfl
  | cons w ws ih =>
    obtain ⟨k, v⟩ := w
    rw [map_cons, mem_cons, not_or] at hi
    rw [JmpBuf.store, ih _ hi.2, update_of_ne hi.1]

theorem JmpBuf.store_of_mem (buf : JmpBuf) {ws : List (ℕ × BitVec 64)} {i : ℕ} {v : BitVec 64}
    (hws : (ws.map Prod.fst).Nodup) (h : (i, v) ∈ ws) : buf.store ws i = v := by
  induction ws generalizing buf with
  | nil => cases h
  | cons w ws ih =>
    rw [map_cons, nodup_cons] at hws
    obtain rfl | h := mem_cons.mp h
    · rw [JmpBuf.store, JmpBuf.store_of_not_mem _ hws.1, update_self]
    · exact ih _ hws.2 h

namespace JmpState

variable {saved env : JmpState} {kind : JmpKind} {buf buf' : JmpBuf}

theorem armSetjmp_fst : saved.armSetjmp.map Prod.fst =
    [0, 1, 2, 3, 4, 5, 6, 7, 8, 9, 10, 11, 12, 14, 15, 16, 17, 18, 19, 20, 21] :=
  rfl

def maskWords : JmpKind → List ℕ
  | .plain => [22]
  | .sig => [23, 22]

theorem setjmpStores_eq (buf : JmpBuf) (hsig : kind = .sig → (saved.xregs 1).setWidth 32 ≠ (0 : BitVec 32)) :
    ∃ front, saved.setjmpStores kind buf = front ++ saved.armSetjmp ∧
      front.map Prod.fst = maskWords kind := by
  cases kind with
  | plain => exact ⟨_, rfl, rfl⟩
  | sig =>
    simp only [setjmpStores, if_pos (hsig rfl)]
    exact ⟨[_, _], rfl, rfl⟩

theorem setjmpStores_nodup (hsig : kind = .sig → (saved.xregs 1).setWidth 32 ≠ (0 : BitVec 32)) :
    ((saved.setjmpStores kind buf).map Prod.fst).Nodup := by
  obtain ⟨front, heq, hfront⟩ := setjmpStores_eq buf hsig
  rw [heq, map_append, hfront, armSetjmp_fst]
  cases kind with
  | plain => decide
  | sig => decide

theorem store_armSetjmp (hsig : kind = .sig → (saved.xregs 1).setWidth 32 ≠ (0 : BitVec 32))
    {i : ℕ} {v : BitVec 64} (h : (i, v) ∈ saved.armSetjmp) :
    buf.store (saved.setjmpStores kind buf) i = v := by
  refine buf.store_of_mem (setjmpStores_nodup hsig) ?_
  obtain ⟨front, heq, -⟩ := setjmpStores_eq buf hsig
  rw [heq]
  exact mem_append_right front h

theorem restoreMask_zregs : (env.restoreMask kind buf).zregs = env.zregs := by
  unfold restoreMask
  split
  · rfl
  · split <;> rfl

/-- The mask after the jump is that of the `setjmp` exactly if it is found in words 44 and 46. -/
theorem restoreMask_signalMask_iff :
    (env.restoreMask kind buf).signalMask = saved.signalMask ↔ saved.MaskFound env kind buf := by
  cases kind with
  | plain => exact Iff.rfl
  | sig =>
    have hflag : jmpSigflag >>> 2 = 46 := rfl
    simp only [restoreMask, MaskFound, hflag, ne_eq, ite_not]
    split
    · exact Iff.rfl
    · exact Iff.rfl

theorem callLongjmp_xregs {i : ℕ} (hlo : 19 ≤ i) (hhi : i < 32) :
    (env.callLongjmp kind buf).xregs i = buf (i - 19) := by
  have hi : i ≠ 0 := by omega
  simp [callLongjmp, armLongjmp, update_of_ne hi, hlo, hhi, jmpR19R20]

theorem callLongjmp_zregs {i : ℕ} (hlo : 8 ≤ i) (hhi : i < 16) :
    (env.callLongjmp kind buf).zregs i 0 = buf (14 + (i - 8)) := by
  simp [callLongjmp, armLongjmp, hlo, hhi, jmpD8D9]

/-- All but the mask is restored from an untouched buffer. -/
theorem restored_iff_signalMask
    (hsig : kind = .sig → (saved.xregs 1).setWidth 32 ≠ (0 : BitVec 32))
    (hbuf : ∀ i < 24, buf' i = (saved.callSetjmp kind buf).2 i) :
    saved.Restored env (env.callLongjmp kind buf') ↔
      (env.callLongjmp kind buf').signalMask = saved.signalMask := by
  refine ⟨fun h => h.signalMask, fun hmask => ?_⟩
  have hx : ∀ k < 13, buf' k = saved.xregs (19 + k) := by
    intro k hk
    rw [hbuf k (by omega)]
    refine store_armSetjmp hsig (mem_append_left _ (mem_map.mpr ⟨k, ?_, ?_⟩))
    · exact mem_range.mpr hk
    · rw [show (jmpR19R20 >>> 3) + k = k by simp [jmpR19R20]]
  have hz : ∀ k < 8, buf' (14 + k) = saved.zregs (8 + k) 0 := by
    intro k hk
    rw [hbuf (14 + k) (by omega)]
    exact store_armSetjmp hsig
      (mem_append_right _ (mem_map.mpr ⟨k, mem_range.mpr hk, rfl⟩))
  constructor
  · intro i hlo hhi
    rw [callLongjmp_xregs hlo hhi, hx _ (by omega), show 19 + (i - 19) = i by omega]
  · intro i hlo hhi
    rw [callLongjmp_zregs hlo hhi, hz _ (by omega), show 8 + (i - 8) = i by omega]
  · exact hmask
  · exact hx 11 (by decide)
  · simp only [callLongjmp, armLongjmp, update_self]
    split
    · rfl
    · rfl
  · intro i j hij
    simp only [callLongjmp, armLongjmp, restoreMask_zregs]
    exact if_neg (by omega)

/-- The jump depends on word 44, which no `setjmp` writes. -/
theorem not_readsOnly (hsig : kind = .sig → (saved.xregs 1).setWidth 32 ≠ (0 : BitVec 32)) :
    ¬ ReadsOnly (fun buf => env.callLongjmp kind buf)
      ((saved.setjmpStores kind buf).map Prod.fst) := by
  intro h
  obtain ⟨front, heq, hfront⟩ := setjmpStores_eq buf hsig
  let words (v : BitVec 64) : JmpBuf := fun i => if i = 44 then v else 1
  have hagree : ∀ i ∈ (saved.setjmpStores kind buf).map Prod.fst, words 0 i = words 1 i := by
    intro i hi
    have hne : i ≠ 44 := by
      rintro rfl
      rw [heq, map_append, hfront, armSetjmp_fst] at hi
      cases kind with
      | plain => exact absurd hi (by decide)
      | sig => exact absurd hi (by decide)
    simp only [words, if_neg hne]
  have hsame := congrArg JmpState.signalMask (h _ _ hagree)
  have hmask : ∀ v, (env.callLongjmp kind (words v)).signalMask = withoutKillStop (loadMask v) := by
    intro v
    cases kind with
    | plain => rfl
    | sig => rfl
  rw [hmask, hmask] at hsame
  exact absurd hsame (by decide)

end JmpState

/-- After a jump through an untouched buffer everything is as at the `setjmp` exactly if the mask is
found in words 44 and 46, beyond the buffer. It always depends on a word that was not saved. -/
theorem setjmp_longjmp_iff (kind : JmpKind) (saved env : JmpState) (buf buf' : JmpBuf)
    (hsig : kind = .sig → (saved.xregs 1).setWidth 32 ≠ (0 : BitVec 32))
    (hbuf : ∀ i < 24, buf' i = (saved.callSetjmp kind buf).2 i) :
    (saved.Restored env (env.callLongjmp kind buf') ↔ saved.MaskFound env kind buf') ∧
      ¬ ReadsOnly (fun buf => env.callLongjmp kind buf)
        ((saved.setjmpStores kind buf).map Prod.fst) := by
  refine ⟨?_, JmpState.not_readsOnly hsig⟩
  rw [JmpState.restored_iff_signalMask hsig hbuf]
  exact JmpState.restoreMask_signalMask_iff

/-- `SIGHUP` is blocked and the flag of `sigsetjmp` is set. -/
def blockedHup : JmpState := ⟨0, fun i => if i = 1 then 1 else 0, fun _ _ => 0, 1⟩

theorem setjmp_longjmp_iff_blockedHup :
    (blockedHup.Restored blockedHup
        (blockedHup.callLongjmp .sig (blockedHup.callSetjmp .sig fun _ => 0).2) ↔
      blockedHup.MaskFound blockedHup .sig (blockedHup.callSetjmp .sig fun _ => 0).2) ∧
      ¬ ReadsOnly (fun buf => blockedHup.callLongjmp .sig buf)
        ((blockedHup.setjmpStores .sig fun _ => 0).map Prod.fst) :=
  setjmp_longjmp_iff .sig blockedHup blockedHup (fun _ => 0) _ (fun _ => by decide) fun _ _ => rfl

/-- With `SIGHUP` blocked at the `setjmp` and zeros behind the buffer, `longjmp` unblocks it. -/
theorem setjmp_longjmp_unblocks :
    ¬ blockedHup.Restored blockedHup
      (blockedHup.callLongjmp .plain (blockedHup.callSetjmp .plain fun _ => 0).2) := by
  intro h
  exact absurd h.signalMask (by decide)

end Iqemu64
