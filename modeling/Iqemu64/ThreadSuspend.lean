import Iqemu64.Runs
import Mathlib.Tactic

/-!
# Suspending a thread

`my_thread_suspend` takes four locks with `trylock_all_qemu_lock` before it stops another thread, so
that the thread is not stopped while it holds one of them. Threads also take the jump lock of a block
and the work-queue lock of a CPU, which are not among the four.
-/

namespace Iqemu64
open List Function

inductive EmuLock where
  | cpuList | mmap | htable | blockRecord
  | jmp (tb : ℕ)
  | work (cpu : ℕ)
  deriving DecidableEq, Repr

def allQemuLocks : List EmuLock := [.cpuList, .mmap, .htable, .blockRecord]

/-- Where a thread is in `my_thread_suspend`: it takes the locks of `todo` for a target, it is about to
stop the target without them, or it gives locks back, to try again for a target or to return. -/
inductive SuspendPhase where
  | idle
  | taking (target : ℕ) (taken todo : List EmuLock)
  | direct (target : ℕ)
  | releasing (again : Option ℕ) (locks : List EmuLock)
  deriving DecidableEq, Repr

/-- Who holds each lock, how often each thread has entered the memory lock, and which threads have been
stopped by whom. -/
structure LockState where
  owner : EmuLock → Option ℕ
  mmapLockCount : ℕ → ℕ
  phase : ℕ → SuspendPhase
  suspendedBy : ℕ → Option ℕ

/-- A thread takes or gives back a lock outside `my_thread_suspend`, calls it, or goes on in it. -/
inductive LockEvent where
  | lock (thread : ℕ) (l : EmuLock)
  | unlock (thread : ℕ) (l : EmuLock)
  | mySuspend (thread target : ℕ) (fromJit found : Bool)
  | suspendStep (thread : ℕ)
  | resume (thread target : ℕ)
  deriving DecidableEq, Repr

namespace LockState

def start : LockState := ⟨fun _ => none, fun _ => 0, fun _ => .idle, fun _ => none⟩

variable (s : LockState)

def setPhase (i : ℕ) (p : SuspendPhase) : LockState := { s with phase := update s.phase i p }

def tryLock (i : ℕ) (l : EmuLock) : Option LockState :=
  if l = .mmap ∧ 0 < s.mmapLockCount i then
    some { s with mmapLockCount := update s.mmapLockCount i (s.mmapLockCount i + 1) }
  else if s.owner l = none then
    some { s with
      owner := update s.owner l (some i)
      mmapLockCount :=
        if l = .mmap then update s.mmapLockCount i 1 else s.mmapLockCount }
  else none

def unlock (i : ℕ) (l : EmuLock) : LockState :=
  if l = .mmap then
    { s with
      owner := if s.mmapLockCount i - 1 = 0 then update s.owner l none else s.owner
      mmapLockCount := update s.mmapLockCount i (s.mmapLockCount i - 1) }
  else { s with owner := update s.owner l none }

def stop (i target : ℕ) : LockState :=
  { s with suspendedBy := update s.suspendedBy target (some i) }

def suspendStep (i : ℕ) : Option LockState :=
  match s.phase i with
  | .idle => none
  | .taking target taken (l :: todo) =>
    match s.tryLock i l with
    | some t => some (t.setPhase i (.taking target (l :: taken) todo))
    | none => some (s.setPhase i (.releasing (some target) taken))
  | .taking target taken [] => some ((s.stop i target).setPhase i (.releasing none taken))
  | .direct target => some ((s.stop i target).setPhase i .idle)
  | .releasing again (l :: locks) => some ((s.unlock i l).setPhase i (.releasing again locks))
  | .releasing (some target) [] => some (s.setPhase i (.taking target [] allQemuLocks))
  | .releasing none [] => some (s.setPhase i .idle)

def step : LockEvent → Option LockState
  | .lock i l => if s.suspendedBy i = none ∧ s.phase i = .idle then s.tryLock i l else none
  | .unlock i l =>
    if s.suspendedBy i = none ∧ s.phase i = .idle ∧ s.owner l = some i then some (s.unlock i l) else none
  | .mySuspend i target fromJit found =>
    if s.suspendedBy i = none ∧ s.phase i = .idle then
      some (s.setPhase i (if fromJit && found && target ≠ i then .taking target [] allQemuLocks
        else .direct target))
    else none
  | .suspendStep i => if s.suspendedBy i = none then s.suspendStep i else none
  | .resume i target =>
    if s.suspendedBy i = none then
      some { s with suspendedBy := update s.suspendedBy target none }
    else none

def Step (s : LockState) (e : LockEvent) (t : LockState) : Prop := s.step e = some t

def NoneHeld : Prop := ∀ i j, s.suspendedBy j = some i → i ≠ j → ∀ l, s.owner l ≠ some j

/-- The next step of the thread stops a target while it holds the locks of a list. -/
def Stops (i target : ℕ) (taken : List EmuLock) : Prop :=
  s.phase i = .taking target taken [] ∨ (s.phase i = .direct target ∧ taken = [])

/-- A thread is stopped only while it holds no other locks than those that the stopping thread has
taken. -/
def Careful (s : LockState) : LockEvent → Prop
  | .suspendStep i => ∀ target taken, s.Stops i target taken → i ≠ target →
      ∀ l, s.owner l = some target → l ∈ taken
  | _ => True

end LockState

def SuspendPhase.owns : SuspendPhase → List EmuLock
  | .taking _ taken _ => taken
  | .releasing _ locks => locks
  | _ => []

def SuspendPhase.all : SuspendPhase → List EmuLock
  | .taking _ taken todo => taken ++ todo
  | .releasing _ locks => locks
  | _ => []

namespace LockState

structure Watched (s : LockState) : Prop where
  noneHeld : s.NoneHeld
  owns : ∀ i, ∀ l ∈ (s.phase i).owns, s.owner l = some i
  nodup : ∀ i, (s.phase i).all.Nodup
  count : ∀ i, 0 < s.mmapLockCount i → s.owner .mmap = some i

theorem watched_start : start.Watched := by
  refine ⟨?_, ?_, ?_, ?_⟩ <;> simp [start, NoneHeld, SuspendPhase.owns, SuspendPhase.all]

variable {s t : LockState} {i : ℕ} {l : EmuLock}

/-- A lock is taken only when it is free, or by the thread that has it. -/
theorem tryLock_owner (h : s.Watched) (ht : s.tryLock i l = some t) :
    t.owner l = some i ∧ (∀ l', t.owner l' = s.owner l' ∨ s.owner l' = none ∧ t.owner l' = some i) ∧
      t.phase = s.phase ∧ t.suspendedBy = s.suspendedBy ∧
      ∀ j, 0 < t.mmapLockCount j → t.owner .mmap = some j := by
  unfold tryLock at ht
  by_cases hagain : l = .mmap ∧ 0 < s.mmapLockCount i
  · rw [if_pos hagain] at ht
    injection ht with ht
    subst ht
    have howner := h.count i hagain.2
    refine ⟨hagain.1 ▸ howner, fun _ => .inl rfl, rfl, rfl, fun j hj => ?_⟩
    rcases eq_or_ne j i with rfl | hne
    · exact howner
    · exact h.count j (by simpa only [update_of_ne hne] using hj)
  · rw [if_neg hagain] at ht
    by_cases hfree : s.owner l = none
    · rw [if_pos hfree] at ht
      injection ht with ht
      subst ht
      refine ⟨update_self l (some i) s.owner, fun l' => ?_, rfl, rfl, fun j hj => ?_⟩
      · rcases eq_or_ne l' l with rfl | hne
        · exact .inr ⟨hfree, update_self _ _ _⟩
        · exact .inl (update_of_ne hne _ _)
      · rcases eq_or_ne l .mmap with rfl | hne
        · rcases eq_or_ne j i with rfl | hji
          · exact update_self EmuLock.mmap (some j) s.owner
          · simp only [if_true, update_of_ne hji] at hj
            rw [h.count j hj] at hfree
            cases hfree
        · simp only [hne, if_false] at hj
          exact (update_of_ne hne.symm _ _).trans (h.count j hj)
    · rw [if_neg hfree] at ht
      cases ht

theorem unlock_owner (l' : EmuLock) :
    (s.unlock i l).owner l' = s.owner l' ∨ l' = l ∧ (s.unlock i l).owner l' = none := by
  have hupdate : update s.owner l none l' = s.owner l' ∨
      l' = l ∧ update s.owner l none l' = none := by
    rcases eq_or_ne l' l with rfl | hne
    · exact .inr ⟨rfl, update_self _ _ _⟩
    · exact .inl (update_of_ne hne _ _)
  unfold LockState.unlock
  split_ifs
  · exact hupdate
  · exact .inl rfl
  · exact hupdate

theorem unlock_phase : (s.unlock i l).phase = s.phase := by
  unfold LockState.unlock
  split_ifs <;> rfl

theorem unlock_suspendedBy : (s.unlock i l).suspendedBy = s.suspendedBy := by
  unfold LockState.unlock
  split_ifs <;> rfl

theorem unlock_count (h : s.Watched) (hl : s.owner l = some i) (j : ℕ)
    (hj : 0 < (s.unlock i l).mmapLockCount j) : (s.unlock i l).owner .mmap = some j := by
  unfold LockState.unlock at hj ⊢
  by_cases hmmap : l = .mmap
  · subst hmmap
    simp only [if_true] at hj ⊢
    rcases eq_or_ne j i with rfl | hne
    · rw [update_self] at hj
      rw [if_neg (by omega)]
      exact hl
    · -- another thread cannot have entered the lock
      rw [update_of_ne hne] at hj
      have := (h.count j hj).symm.trans hl
      exact absurd (Option.some.inj this) hne
  · simp only [hmmap, if_false] at hj ⊢
    rw [update_of_ne (Ne.symm hmmap)]
    exact h.count j hj

/-- Locks that a thread has to give back, and that it is not about to give back, stay with it. -/
theorem Watched.tryLock (h : s.Watched) (hrun : s.suspendedBy i = none) (ht : s.tryLock i l = some t) :
    t.Watched := by
  obtain ⟨-, howner, hphase, hsusp, hcount⟩ := tryLock_owner h ht
  refine ⟨fun k j hj hne l' hl' => ?_, fun k l' hl' => ?_, fun k => ?_, hcount⟩
  · rw [hsusp] at hj
    rcases howner l' with heq | ⟨-, hi⟩
    · exact h.noneHeld k j hj hne l' (heq ▸ hl')
    · obtain rfl : i = j := Option.some.inj (hi.symm.trans hl')
      rw [hrun] at hj
      cases hj
  · rw [hphase] at hl'
    have hk := h.owns k l' hl'
    rcases howner l' with heq | ⟨hnone, -⟩
    · rw [heq, hk]
    · rw [hk] at hnone
      cases hnone
  · rw [hphase]
    exact h.nodup k

theorem Watched.unlock (h : s.Watched) (hl : s.owner l = some i) (hkeep : l ∉ (s.phase i).owns) :
    (s.unlock i l).Watched := by
  refine ⟨fun k j hj hne l' hl' => ?_, fun k l' hl' => ?_, fun k => ?_, unlock_count h hl⟩
  · rw [unlock_suspendedBy] at hj
    rcases unlock_owner (s := s) (i := i) (l := l) l' with heq | ⟨-, hnone⟩
    · exact h.noneHeld k j hj hne l' (heq ▸ hl')
    · rw [hl'] at hnone
      cases hnone
  · rw [unlock_phase] at hl'
    have hk := h.owns k l' hl'
    rcases unlock_owner (s := s) (i := i) (l := l) l' with heq | ⟨rfl, -⟩
    · rw [heq, hk]
    · obtain rfl : k = i := Option.some.inj (hk.symm.trans hl)
      exact absurd hl' hkeep
  · rw [unlock_phase]
    exact h.nodup k

theorem Watched.setPhase (h : s.Watched) {p : SuspendPhase} (howns : ∀ l ∈ p.owns, s.owner l = some i)
    (hnodup : p.all.Nodup) : (s.setPhase i p).Watched := by
  refine ⟨h.noneHeld, fun k l hl => ?_, fun k => ?_, h.count⟩
  · rcases eq_or_ne k i with rfl | hne
    · simp only [LockState.setPhase, update_self] at hl
      exact howns l hl
    · simp only [LockState.setPhase, update_of_ne hne] at hl
      exact h.owns k l hl
  · rcases eq_or_ne k i with rfl | hne
    · simpa only [LockState.setPhase, update_self] using hnodup
    · simpa only [LockState.setPhase, update_of_ne hne] using h.nodup k

theorem setPhase_unlock (p : SuspendPhase) :
    (s.unlock i l).setPhase i p = (s.setPhase i p).unlock i l := by
  unfold LockState.unlock
  by_cases hl : l = .mmap
  · rw [if_pos hl, if_pos hl]
    rfl
  · rw [if_neg hl, if_neg hl]
    rfl

theorem Watched.stop (h : s.Watched) {target : ℕ} (hnone : i ≠ target → ∀ l, s.owner l ≠ some target) :
    (s.stop i target).Watched := by
  refine ⟨fun k j hj hne l hl => ?_, h.owns, h.nodup, h.count⟩
  simp only [LockState.stop] at hj
  rcases eq_or_ne j target with rfl | hjt
  · rw [update_self] at hj
    cases hj
    exact hnone hne l hl
  · rw [update_of_ne hjt] at hj
    exact h.noneHeld k j hj hne l hl

/-- The locks that the stopping thread has taken are not the target's. -/
theorem Watched.noneHeld_of_stops (h : s.Watched) {target : ℕ} {taken : List EmuLock}
    (hstops : s.Stops i target taken) (hne : i ≠ target)
    (hcare : ∀ l, s.owner l = some target → l ∈ taken) (l : EmuLock) : s.owner l ≠ some target := by
  intro hl
  have htaken := hcare l hl
  rcases hstops with hphase | ⟨-, rfl⟩
  · have hown := h.owns i l (by rw [hphase]; exact htaken)
    exact hne (Option.some.inj (hown.symm.trans hl))
  · cases htaken

theorem nodup_allQemuLocks : allQemuLocks.Nodup := by decide

theorem Watched.suspendStep (h : s.Watched) (hrun : s.suspendedBy i = none)
    (hcare : s.Careful (.suspendStep i)) (ht : s.suspendStep i = some t) : t.Watched := by
  have howns := h.owns i
  have hnodup := h.nodup i
  unfold LockState.suspendStep at ht
  cases hp : s.phase i with
  | idle => simp [hp] at ht
  | taking target taken todo =>
    rw [hp] at howns hnodup
    cases todo with
    | nil =>
      simp only [hp] at ht
      injection ht with ht
      subst ht
      have hstop := h.stop fun hne =>
        h.noneHeld_of_stops (.inl hp) hne (hcare target taken (.inl hp) hne)
      exact hstop.setPhase howns (by simpa [SuspendPhase.all] using hnodup)
    | cons l todo =>
      simp only [hp] at ht
      cases hl : s.tryLock i l with
      | some u =>
        simp only [hl] at ht
        injection ht with ht
        subst ht
        obtain ⟨hown, hothers, -⟩ := tryLock_owner h hl
        refine (h.tryLock hrun hl).setPhase (fun l' hl' => ?_) ?_
        · rcases mem_cons.mp hl' with rfl | hl'
          · exact hown
          · rcases hothers l' with heq | ⟨-, hi⟩
            · rw [heq]
              exact howns l' hl'
            · exact hi
        · exact (perm_middle.nodup_iff).mp hnodup
      | none =>
        simp only [hl] at ht
        injection ht with ht
        subst ht
        exact h.setPhase howns (List.Nodup.of_append_left hnodup)
  | direct target =>
    simp only [hp] at ht
    injection ht with ht
    subst ht
    have hstop := h.stop fun hne =>
      h.noneHeld_of_stops (.inr ⟨hp, rfl⟩) hne (hcare target [] (.inr ⟨hp, rfl⟩) hne)
    exact hstop.setPhase (fun l hl => absurd hl not_mem_nil) nodup_nil
  | releasing again locks =>
    rw [hp] at howns hnodup
    cases locks with
    | cons l locks =>
      simp only [hp] at ht
      injection ht with ht
      subst ht
      obtain ⟨hl, hrest⟩ := nodup_cons.mp hnodup
      have hphase : (s.setPhase i (.releasing again locks)).Watched :=
        h.setPhase (forall_mem_cons.mp howns).2 hrest
      rw [setPhase_unlock]
      refine hphase.unlock (howns l mem_cons_self) ?_
      simp only [LockState.setPhase, update_self]
      exact hl
    | nil =>
      cases again with
      | some target =>
        simp only [hp] at ht
        injection ht with ht
        subst ht
        exact h.setPhase (fun l hl => absurd hl not_mem_nil) nodup_allQemuLocks
      | none =>
        simp only [hp] at ht
        injection ht with ht
        subst ht
        exact h.setPhase (fun l hl => absurd hl not_mem_nil) nodup_nil

theorem Watched.step (h : s.Watched) {e : LockEvent} (hcare : s.Careful e) (ht : Step s e t) :
    t.Watched := by
  cases e with
  | lock i l =>
    simp only [Step, LockState.step] at ht
    split_ifs at ht with hrun
    exact h.tryLock hrun.1 ht
  | unlock i l =>
    simp only [Step, LockState.step] at ht
    split_ifs at ht with hrun
    injection ht with ht
    subst ht
    refine h.unlock hrun.2.2 ?_
    rw [hrun.2.1]
    exact not_mem_nil
  | mySuspend i target fromJit found =>
    simp only [Step, LockState.step] at ht
    by_cases hrun : s.suspendedBy i = none ∧ s.phase i = .idle
    · rw [if_pos hrun] at ht
      injection ht with ht
      subst ht
      refine h.setPhase (fun l hl => ?_) ?_
      · split_ifs at hl <;> exact absurd hl not_mem_nil
      · split_ifs
        · exact nodup_allQemuLocks
        · exact nodup_nil
    · rw [if_neg hrun] at ht
      cases ht
  | suspendStep i =>
    simp only [Step, LockState.step] at ht
    split_ifs at ht with hrun
    exact h.suspendStep hrun hcare ht
  | resume i target =>
    simp only [Step, LockState.step] at ht
    split_ifs at ht with hrun
    injection ht with ht
    subst ht
    refine ⟨fun k j hj hne l => h.noneHeld k j ?_ hne l, h.owns, h.nodup, h.count⟩
    rcases eq_or_ne j target with rfl | hjt
    · simp at hj
    · simpa only [update_of_ne hjt] using hj

/-- A thread that holds another lock when it is stopped keeps it. -/
theorem not_noneHeld_of_stops {target : ℕ} {taken : List EmuLock} (hstops : s.Stops i target taken)
    (hne : i ≠ target) (hl : s.owner l = some target) (ht : Step s (.suspendStep i) t) :
    ¬ t.NoneHeld := by
  intro hnone
  simp only [Step, LockState.step] at ht
  split_ifs at ht with hrun
  rcases hstops with hp | ⟨hp, -⟩
  · simp only [LockState.suspendStep, hp] at ht
    injection ht with ht
    subst ht
    exact hnone i target (update_self _ _ _) hne l hl
  · simp only [LockState.suspendStep, hp] at ht
    injection ht with ht
    subst ht
    exact hnone i target (update_self _ _ _) hne l hl

end LockState

open LockState

/-- In every careful run the threads that others have stopped hold no lock; from where such a run leads,
stopping a thread that holds any other lock leaves it held. -/
theorem noneHeld_of_careful (es : List LockEvent) (s : LockState)
    (hcare : Runs.Along Step Careful start es) (h : Runs.Reaches Step start es s) :
    s.NoneHeld ∧ ∀ i target taken t, s.Stops i target taken → i ≠ target →
      (∃ l, s.owner l = some target) → Step s (.suspendStep i) t → ¬ t.NoneHeld :=
  ⟨(hcare.reaches_invariant (fun _ _ _ hw hc ht => hw.step hc ht) watched_start h).noneHeld,
    fun _ _ _ _ hstops hne ⟨_, hl⟩ ht => not_noneHeld_of_stops hstops hne hl ht⟩

/-- The locks of `tb_add_jump` on the way to a block. -/
def tbAddJump (thread tb : ℕ) : List LockEvent := [.lock thread (.jmp tb), .unlock thread (.jmp tb)]

def queueWorkOnCpu (thread cpu : ℕ) : List LockEvent :=
  [.lock thread (.work cpu), .unlock thread (.work cpu)]

/-- A thread is stopped in the middle of `tb_add_jump`. -/
theorem not_noneHeld_in_tbAddJump :
    ∃ s, Runs.Reaches Step start
      ((tbAddJump 0 7).take 1 ++ [.mySuspend 1 0 true true] ++ replicate 5 (.suspendStep 1)) s ∧
      s.suspendedBy 0 = some 1 ∧ s.owner (.jmp 7) = some 0 :=
  ⟨_, .cons rfl (.cons rfl (.cons rfl (.cons rfl (.cons rfl (.cons rfl (.cons rfl (.nil _))))))), rfl, rfl⟩

def suspendAfterWork : List LockEvent :=
  queueWorkOnCpu 0 2 ++ [.mySuspend 1 0 true true] ++ replicate 5 (.suspendStep 1)

theorem lockAlong_cons {s t : LockState} {e : LockEvent} {es : List LockEvent} (ht : s.step e = some t)
    (hcare : s.Careful e) (h : Runs.Along Step Careful t es) : Runs.Along Step Careful s (e :: es) :=
  ⟨hcare, fun _ ht' => Option.some.inj (ht.symm.trans ht') ▸ h⟩

theorem careful_of_taking {s : LockState} {i target : ℕ} {taken todo : List EmuLock} {l : EmuLock}
    (h : s.phase i = .taking target taken (l :: todo)) : s.Careful (.suspendStep i) := by
  rintro target' taken' (hp | ⟨hp, -⟩)
  · cases h.symm.trans hp
  · cases h.symm.trans hp

theorem along_suspendAfterWork : Runs.Along Step Careful start suspendAfterWork := by
  refine lockAlong_cons rfl trivial (lockAlong_cons rfl trivial (lockAlong_cons rfl trivial
    (lockAlong_cons rfl (careful_of_taking rfl) (lockAlong_cons rfl (careful_of_taking rfl)
      (lockAlong_cons rfl (careful_of_taking rfl) (lockAlong_cons rfl (careful_of_taking rfl)
        (lockAlong_cons rfl ?_ trivial)))))))
  rintro target taken (hp | ⟨hp, -⟩) hne l hl
  · injection hp with htarget htaken
    subst htarget htaken
    cases l with
    | cpuList => simp
    | mmap => simp
    | htable => simp
    | blockRecord => simp
    | jmp tb => cases hl
    | work cpu =>
      have hfree : ∀ v : Option ℕ, update (update start.owner (.work 2) v) (.work 2) none
          (EmuLock.work cpu) = none := fun v => by
        rw [update_idem]
        by_cases hcpu : cpu = 2 <;> simp [hcpu, start]
      cases (hfree (some 0)).symm.trans hl
  · cases hp

theorem noneHeld_of_careful_work :
    ∃ s, Runs.Reaches Step start suspendAfterWork s ∧ s.suspendedBy 0 = some 1 ∧ s.NoneHeld := by
  have hrun : ∃ s, Runs.Reaches Step start suspendAfterWork s ∧ s.suspendedBy 0 = some 1 :=
    ⟨_, .cons rfl (.cons rfl (.cons rfl (.cons rfl (.cons rfl (.cons rfl (.cons rfl
      (.cons rfl (.nil _)))))))), rfl⟩
  obtain ⟨s, hs, hsusp⟩ := hrun
  exact ⟨s, hs, hsusp, (noneHeld_of_careful _ s along_suspendAfterWork hs).1⟩

end Iqemu64
