import Mathlib.Tactic.IntervalCases
import Iqemu64.ExclusiveRequests
import Iqemu64.FairRuns

/-!
# Exclusive requests are granted

In a fair run a thread that could go on in its function again and again does so, and exclusive sections end.
A thread that `start_exclusive` has kicked does not stay in translated code. It may stay in a host function that
guest code has called, where it is still marked as running: the request then waits for it for ever.
-/

open Filter

namespace Iqemu64
open List Option ExclState

namespace GrantState

def CanMove (cpus : List ℕ) (s : GrantState) (i : ℕ) : Prop :=
  s.asleep i = false ∧ s.excl.waits i = false ∧ ∃ t, s.excl.next cpus i = some t

def InTranslated (s : GrantState) (i : ℕ) : Prop := (s.excl.threads i).Executes ∧ s.inHost i = false

/-- `start_exclusive` has been called and has not returned. -/
def Requests (s : GrantState) (i : ℕ) : Prop :=
  match (s.excl.threads i).loc with
  | .exLock => True
  | .exScan _ _ => True
  | .exWait => True
  | _ => False

end GrantState

abbrev GrantRun (cpus : List ℕ) :=
  FairRuns.Run (fun s e t => GrantState.step cpus s e = some t) GrantState.start

namespace GrantRun

variable {cpus : List ℕ}

def thread (r : GrantRun cpus) (n i : ℕ) : CpuThread := (r.state n).excl.threads i

def Moves (r : GrantRun cpus) (i n : ℕ) : Prop :=
  r.event n = some (i, .next) ∧ (r.state n).CanMove cpus i

structure Fair (r : GrantRun cpus) : Prop where
  moves : ∀ i ∈ cpus, (∃ᶠ n in atTop, (r.state n).CanMove cpus i) → ∃ᶠ n in atTop, r.Moves i n
  ends : ∀ i n, (r.thread n i).loc = .exclusive → ∃ m, n ≤ m ∧ r.event m = some (i, .endExclusive)

/-- A kicked thread leaves the translated code that it is executing: it is not there again and again without a
`cpu_exec_end`. -/
def LeavesKicked (r : GrantRun cpus) : Prop :=
  ∀ i, (∃ᶠ n in atTop, (r.state n).InTranslated i ∧ (r.thread n i).hasWaiter = true) →
    ∃ᶠ n in atTop, r.event n = some (i, .cpuExecEnd)

/-- From some time on the thread stays in a host function, marked as running. -/
def Stuck (r : GrantRun cpus) (j n : ℕ) : Prop :=
  ∀ m, n ≤ m → (r.state m).inHost j = true ∧ (r.thread m j).running = true

end GrantRun

/-! ### What one step can do -/

namespace ExclState

variable {cpus : List ℕ} {s t : ExclState} {i k : ℕ} {th : CpuThread}

/-- Another thread stays as it is, except that the scan may wait for it. -/
theorem next_other (h : s.next cpus i = some t) (hk : k ≠ i) :
    t.threads k = s.threads k ∨ (s.threads i).loc.Scans ∧
      t.threads k = { s.threads k with hasWaiter := true } := by
  have hset : ∀ th, (s.set i th).threads k = s.threads k := fun th => threads_set_of_ne hk
  unfold next at h
  simp only at h
  cases hloc : (s.threads i).loc with
  | exScan rest n =>
    cases rest with
    | nil =>
      simp only [hloc] at h
      cases h
      exact .inl (hset _)
    | cons j rest =>
      simp only [hloc] at h
      split at h <;> obtain rfl := Option.some.inj h
      · rw [threads_set_of_ne hk]
        by_cases hkj : k = j
        · exact .inr ⟨trivial, by rw [hkj, threads_set_self]⟩
        · exact .inl (threads_set_of_ne hkj)
      · exact .inl (hset _)
  | _ =>
    simp only [hloc] at h
    refine .inl ?_
    repeat' split at h
    all_goals
      first
      | exact (Option.some.inj h) ▸ hset _
      | exact (Option.some.inj h) ▸ rfl
      | cases h

theorem next_not_waited (h : s.next cpus i = some t) (hwaiter : (s.threads i).hasWaiter = false) :
    (t.threads i).hasWaiter = false := by
  have hset : ∀ (u : ExclState) (th : CpuThread), th.hasWaiter = (s.threads i).hasWaiter →
      ((u.set i th).threads i).hasWaiter = false := by
    intro u th hth
    rw [threads_set_self, hth, hwaiter]
  unfold next at h
  simp only at h
  cases hloc : (s.threads i).loc with
  | exScan rest n =>
    cases rest with
    | nil =>
      simp only [hloc] at h
      cases h
      exact hset s _ rfl
    | cons j rest =>
      simp only [hloc] at h
      split at h <;> obtain rfl := Option.some.inj h
      · exact hset _ _ rfl
      · exact hset s _ rfl
  | _ =>
    simp only [hloc] at h
    repeat' split at h
    all_goals
      first
      | exact (Option.some.inj h) ▸ hset s _ rfl
      | exact (Option.some.inj h) ▸ hwaiter
      | exact absurd (hwaiter.symm.trans ‹_›) (by decide)
      | cases h

theorem next_startSet (hloc : (s.threads i).loc = .startSet) :
    ∃ t, s.next cpus i = some t ∧ (t.threads i).loc = .startRead :=
  ⟨s.set i { s.threads i with loc := .startRead, running := true }, by simp only [next, hloc], by rw [threads_set_self]⟩

theorem next_startRead (hloc : (s.threads i).loc = .startRead) (hpending : s.pendingCpus ≠ 0) :
    ∃ t, s.next cpus i = some t ∧ (t.threads i).loc = .startLock :=
  ⟨s.set i { s.threads i with loc := .startLock }, by simp only [next, hloc, if_neg hpending], by rw [threads_set_self]⟩

theorem next_startLock (hloc : (s.threads i).loc = .startLock) (hlock : s.lock = none)
    (hwaiter : (s.threads i).hasWaiter = true) :
    ∃ t, s.next cpus i = some t ∧ (t.threads i).Executes := by
  refine ⟨s.started i (s.threads i).running, by simp [next, hloc, hlock, hwaiter], ?_⟩
  rw [started, threads_set_self]
  exact ⟨rfl, rfl⟩

theorem next_endSet (hloc : (s.threads i).loc = .endSet) :
    ∃ t, s.next cpus i = some t ∧ (t.threads i).loc = .endRead :=
  ⟨s.set i { s.threads i with loc := .endRead, running := false }, by simp only [next, hloc], by rw [threads_set_self]⟩

theorem next_endRead (hloc : (s.threads i).loc = .endRead) (hpending : s.pendingCpus ≠ 0) :
    ∃ t, s.next cpus i = some t ∧ (t.threads i).loc = .endLock :=
  ⟨s.set i { s.threads i with loc := .endLock }, by simp only [next, hloc, if_neg hpending], by rw [threads_set_self]⟩

theorem next_endLock (hloc : (s.threads i).loc = .endLock) (hlock : s.lock = none)
    (hwaiter : (s.threads i).hasWaiter = true) :
    ∃ t, s.next cpus i = some t ∧ (t.threads i).hasWaiter = false := by
  refine ⟨{ s.set i { s.threads i with
      loc := .free, frames := false :: (s.threads i).frames.tail, hasWaiter := false } with
    pendingCpus := s.pendingCpus - 1 }, by simp [next, hloc, hlock, hwaiter], ?_⟩
  show ((s.set i _).threads i).hasWaiter = false
  rw [threads_set_self]

theorem next_exScan_cons (cpus : List ℕ) {j n : ℕ} {rest : List ℕ} (hloc : (s.threads i).loc = .exScan (j :: rest) n) :
    ∃ t, s.next cpus i = some t ∧ ∃ n', (t.threads i).loc = .exScan rest n' := by
  by_cases hrunning : (s.threads j).running = true
  · exact ⟨(s.set j { s.threads j with hasWaiter := true }).set i
      { s.threads i with loc := .exScan rest (n + 1) }, by simp only [next, hloc, if_pos hrunning], n + 1,
      by rw [threads_set_self]⟩
  · exact ⟨s.set i { s.threads i with loc := .exScan rest n },
      by simp only [next, hloc, if_neg hrunning], n, by rw [threads_set_self]⟩

theorem next_exScan_nil (cpus : List ℕ) {n : ℕ} (hloc : (s.threads i).loc = .exScan [] n) :
    ∃ t, s.next cpus i = some t ∧ ((t.threads i).loc = .exWait ∨ (t.threads i).loc = .exclusive) := by
  refine ⟨{ s.set i { s.threads i with loc := if n + 1 > 1 then .exWait else .exclusive } with
    pendingCpus := n + 1, lock := none }, by simp only [next, hloc], ?_⟩
  show ((s.set i _).threads i).loc = _ ∨ ((s.set i _).threads i).loc = _
  rw [threads_set_self]
  by_cases hn : n + 1 > 1
  · exact .inl (if_pos hn)
  · exact .inr (if_neg hn)

theorem next_exLock (cpus : List ℕ) (hloc : (s.threads i).loc = .exLock) (hlock : s.lock = none)
    (hpending : s.pendingCpus = 0) :
    ∃ t, s.next cpus i = some t ∧ (t.threads i).loc = .exScan cpus 0 := by
  refine ⟨{ s.set i { s.threads i with loc := .exScan cpus 0 } with pendingCpus := 1, lock := some i },
    by simp [next, hloc, hlock, hpending], ?_⟩
  show ((s.set i _).threads i).loc = _
  rw [threads_set_self]

theorem next_exWait (cpus : List ℕ) (hloc : (s.threads i).loc = .exWait) (hlock : s.lock = none)
    (hpending : ¬ s.pendingCpus > 1) :
    ∃ t, s.next cpus i = some t ∧ (t.threads i).loc = .exclusive := by
  refine ⟨s.set i { s.threads i with loc := .exclusive }, ?_, by rw [threads_set_self]⟩
  simp only [next, hloc, hlock, if_neg hpending, ne_eq, not_true_eq_false, if_false]

theorem next_exEnd (hloc : (s.threads i).loc = .exEnd) (hlock : s.lock = none) :
    ∃ t, s.next cpus i = some t ∧ t.pendingCpus = 0 :=
  ⟨{ s.set i { s.threads i with loc := .free } with pendingCpus := 0 }, by simp [next, hloc, hlock], rfl⟩

/-- Going to sleep changes nothing that the threads share. -/
theorem next_of_waits (hwaits : s.waits i = true) (h : s.next cpus i = some t) : t = s := by
  unfold next at h
  simp only at h
  obtain hresume | ⟨hloc, hpending⟩ := awaits_of_waits hwaits
  · have hpending := pending_of_waits hwaits
    cases hloc : (s.threads i).loc with
    | exLock =>
      simp only [hloc, hpending, ne_eq, not_false_eq_true, if_true] at h
      split at h
      · cases h
      · exact (Option.some.inj h).symm
    | startIdle =>
      simp only [hloc, hpending, if_false] at h
      split at h
      · cases h
      · exact (Option.some.inj h).symm
    | _ =>
      rw [hloc] at hresume
      cases hresume
  · simp only [hloc, hpending, if_true] at h
    split at h
    · cases h
    · exact (Option.some.inj h).symm

end ExclState

namespace GrantState

variable {cpus : List ℕ} {s t : GrantState} {i k : ℕ} {act : GrantAct}

/-- A call or a return changes only the thread itself, and only outside of the functions. -/
theorem step_call (hinv : Inv cpus s) (h : s.step cpus (i, act) = some t) (hact : act ≠ .next) :
    ((s.excl.threads i).loc = .free ∨ (s.excl.threads i).loc = .exclusive) ∧
      (∀ k, k ≠ i → t.excl.threads k = s.excl.threads k ∧ t.inHost k = s.inHost k) ∧
      (t.excl.threads i).hasWaiter = (s.excl.threads i).hasWaiter ∧
      (t.Requests i → act = .startExclusive) := by
  unfold GrantState.step at h
  simp only at h
  split at h
  · cases h
  have hset : ∀ {u : ExclState} {th : CpuThread} {k : ℕ}, k ≠ i → (u.set i th).threads k = u.threads k :=
    fun hk => threads_set_of_ne hk
  cases act with
  | enter =>
    simp only at h
    split at h
    · cases h
    simp only [GrantState.call, map_eq_some_iff, bind_eq_some_iff] at h
    obtain ⟨w, ⟨u', ⟨u, hu, rfl⟩, ⟨v, hv, rfl⟩⟩, rfl⟩ := h
    obtain ⟨hloc, rfl⟩ := call_enter hu
    obtain ⟨-, -, rfl⟩ := call_cpuExecStart hv
    refine ⟨.inl hloc, fun k hk => ⟨(hset hk).trans (hset hk), Function.update_of_ne hk _ _⟩, ?_, fun hr => ?_⟩
    · simp only [setInHost, threads_set_self]
    · simp [Requests, setInHost, threads_set_self] at hr
  | leave =>
    simp only [GrantState.call, map_eq_some_iff] at h
    obtain ⟨w, ⟨u, hu, rfl⟩, rfl⟩ := h
    obtain ⟨hloc, -, rfl⟩ := call_leave hu
    refine ⟨.inl hloc, fun k hk => ⟨hset hk, Function.update_of_ne hk _ _⟩, ?_, fun hr => ?_⟩
    · simp only [setInHost, threads_set_self]
    · simp [Requests, setInHost, threads_set_self, hloc] at hr
  | cpuExecStart =>
    simp only [GrantState.call, map_eq_some_iff] at h
    obtain ⟨u, hu, rfl⟩ := h
    obtain ⟨hloc, -, rfl⟩ := call_cpuExecStart hu
    refine ⟨.inl hloc, fun k hk => ⟨hset hk, rfl⟩, by simp only [threads_set_self], fun hr => ?_⟩
    simp [Requests, threads_set_self] at hr
  | cpuExecEnd =>
    simp only at h
    split at h
    · cases h
    simp only [GrantState.call, map_eq_some_iff] at h
    obtain ⟨u, hu, rfl⟩ := h
    obtain ⟨⟨hloc, -⟩, rfl⟩ := call_cpuExecEnd hu
    refine ⟨.inl hloc, fun k hk => ⟨hset hk, rfl⟩, by simp only [threads_set_self], fun hr => ?_⟩
    simp [Requests, threads_set_self] at hr
  | startExclusive =>
    simp only [GrantState.call, map_eq_some_iff] at h
    obtain ⟨u, hu, rfl⟩ := h
    obtain ⟨hloc, -, rfl⟩ := call_startExclusive hu
    exact ⟨.inl hloc, fun k hk => ⟨hset hk, rfl⟩, by simp only [threads_set_self], fun _ => rfl⟩
  | endExclusive =>
    simp only [GrantState.call, map_eq_some_iff] at h
    obtain ⟨u, hu, rfl⟩ := h
    obtain ⟨hloc, rfl⟩ := call_endExclusive hu
    refine ⟨.inr hloc, fun k hk => ⟨hset hk, rfl⟩, by simp only [threads_set_self], fun hr => ?_⟩
    simp [Requests, threads_set_self] at hr
  | callHost =>
    simp only at h
    split at h
    · rename_i hloc hframes _
      cases h
      refine ⟨.inl hloc, fun k hk => ⟨rfl, Function.update_of_ne hk _ _⟩, rfl, fun hr => ?_⟩
      simp [Requests, setInHost, hloc] at hr
    · cases h
  | returnHost =>
    simp only at h
    split at h
    · rename_i hhost
      cases h
      have hloc := (hinv.hosted i hhost).1
      refine ⟨.inl hloc, fun k hk => ⟨rfl, Function.update_of_ne hk _ _⟩, rfl, fun hr => ?_⟩
      simp [Requests, setInHost, hloc] at hr
    · cases h
  | next => exact absurd rfl hact

theorem step_next (h : s.step cpus (i, .next) = some t) :
    s.asleep i = false ∧ s.excl.next cpus i = some t.excl ∧ t.inHost = s.inHost := by
  unfold GrantState.step at h
  simp only at h
  split at h
  · cases h
  split at h
  · cases h
  rename_i hawake
  obtain ⟨u, hu, rfl⟩ := map_eq_some_iff.mp h
  exact ⟨Bool.eq_false_iff.mpr hawake, hu, rfl⟩

theorem step_cpuExecEnd (h : s.step cpus (i, .cpuExecEnd) = some t) : (t.excl.threads i).loc = .endSet := by
  unfold GrantState.step at h
  simp only at h
  split at h
  · cases h
  split at h
  · cases h
  obtain ⟨u, hu, rfl⟩ := map_eq_some_iff.mp h
  obtain ⟨-, rfl⟩ := call_cpuExecEnd hu
  simp only [threads_set_self]

theorem step_startExclusive (h : s.step cpus (i, .startExclusive) = some t) :
    (t.excl.threads i).loc = .exLock := by
  unfold GrantState.step at h
  simp only at h
  split at h
  · cases h
  obtain ⟨u, hu, rfl⟩ := map_eq_some_iff.mp h
  obtain ⟨-, -, rfl⟩ := call_startExclusive hu
  simp only [threads_set_self]

theorem step_endExclusive (h : s.step cpus (i, .endExclusive) = some t) : (t.excl.threads i).loc = .exEnd := by
  unfold GrantState.step at h
  simp only at h
  split at h
  · cases h
  obtain ⟨u, hu, rfl⟩ := map_eq_some_iff.mp h
  obtain ⟨-, rfl⟩ := call_endExclusive hu
  simp only [threads_set_self]

theorem step_other (hinv : Inv cpus s) (h : s.step cpus (i, act) = some t) (hk : k ≠ i) :
    t.inHost k = s.inHost k ∧ (t.excl.threads k = s.excl.threads k ∨ (s.excl.threads i).loc.Scans ∧
      t.excl.threads k = { s.excl.threads k with hasWaiter := true }) := by
  by_cases hact : act = .next
  · subst hact
    obtain ⟨-, hnext, hhost⟩ := step_next h
    exact ⟨congrFun hhost k, next_other hnext hk⟩
  · obtain ⟨-, hother, -⟩ := step_call hinv h hact
    exact ⟨(hother k hk).2, .inl (hother k hk).1⟩

theorem step_other_loc (hinv : Inv cpus s) (h : s.step cpus (i, act) = some t) (hk : k ≠ i) :
    (t.excl.threads k).loc = (s.excl.threads k).loc := by
  obtain ⟨-, hsame | ⟨-, hsame⟩⟩ := step_other hinv h hk
  · rw [hsame]
  · rw [hsame]

/-- Threads that sleep on the condition variables get no further. -/
theorem Inv.canMove (h : Inv cpus s) (hwaits : s.excl.waits i = false) {u : ExclState}
    (hu : s.excl.next cpus i = some u) : s.CanMove cpus i :=
  ⟨h.awake hwaits, hwaits, u, hu⟩

/-- The functions of `cpu_exec_start` and `cpu_exec_end` make no request. -/
theorem requests_of_next (h : s.excl.next cpus i = some t.excl) (ht : t.Requests i) : s.Requests i := by
  have hset : ∀ (u : ExclState) (th : CpuThread), (u.set i th).threads i = th :=
    fun _ _ => threads_set_self
  unfold Requests at ht ⊢
  unfold ExclState.next at h
  simp only at h
  cases hloc : (s.excl.threads i).loc with
  | exLock => trivial
  | exScan rest n => trivial
  | exWait => trivial
  | _ =>
    simp only [hloc] at h
    repeat' split at h
    all_goals
      first
      | simp [← Option.some.inj h, started, ended, hset, hloc] at ht
      | cases h

/-- The lock is free unless the thread in the section scans. -/
theorem Inv.lock_free (h : Inv cpus s) (hin : (s.excl.threads i).loc.InSection)
    (hscans : ¬ (s.excl.threads i).loc.Scans) : s.excl.lock = none := by
  cases hlock : s.excl.lock with
  | none => rfl
  | some k => exact absurd ((h.counted.lock_iff hin k).mp hlock).2 hscans

theorem Inv.lock_free_of_idle (h : Inv cpus s) (hzero : s.excl.pendingCpus = 0) : s.excl.lock = none := by
  cases hlock : s.excl.lock with
  | none => rfl
  | some k => exact absurd hzero (h.counted.pending.mpr ⟨k, ((h.counted.lock k).mp hlock).inSection⟩)

end GrantState

namespace GrantRun

variable {cpus : List ℕ} {r : GrantRun cpus} {i j k n m : ℕ} {l : ExclLoc}

theorem inv (r : GrantRun cpus) (hnodup : cpus.Nodup) (n : ℕ) : (r.state n).Inv cpus :=
  r.invariant (fun _ _ _ h ht => h.step hnodup ht) (.start cpus) n

/-- In the middle of a function only the thread itself gets on. -/
theorem loc_succ (hnodup : cpus.Nodup) (hfree : l ≠ .free) (hexcl : l ≠ .exclusive)
    (hloc : (r.thread n i).loc = l) (hmoves : ¬ r.Moves i n) : (r.thread (n + 1) i).loc = l := by
  have hinv := r.inv hnodup n
  cases he : r.event n with
  | none =>
    rw [thread, r.idle n he]
    exact hloc
  | some e =>
    obtain ⟨k, act⟩ := e
    have hstep := r.step n _ he
    by_cases hki : i = k
    · subst hki
      by_cases hact : act = .next
      · subst hact
        obtain ⟨hawake, hnext, -⟩ := GrantState.step_next hstep
        cases hwaits : (r.state n).excl.waits i with
        | true =>
          rw [thread, next_of_waits hwaits hnext]
          exact hloc
        | false => exact absurd ⟨he, hawake, hwaits, _, hnext⟩ hmoves
      · obtain ⟨hout | hout, -⟩ := GrantState.step_call hinv hstep hact
        · exact absurd (hloc.symm.trans hout) hfree
        · exact absurd (hloc.symm.trans hout) hexcl
    · exact (GrantState.step_other_loc hinv hstep hki).trans hloc

theorem loc_of_not_moves (hnodup : cpus.Nodup) (hfree : l ≠ .free) (hexcl : l ≠ .exclusive)
    (hloc : (r.thread n i).loc = l) (hnm : n ≤ m) (hmoves : ∀ k, n ≤ k → k < m → ¬ r.Moves i k) :
    (r.thread m i).loc = l := by
  induction m, hnm using Nat.le_induction with
  | base => exact hloc
  | succ m hnm ih =>
    have hm := ih fun k hk hkm => hmoves k hk (by omega)
    exact loc_succ hnodup hfree hexcl hm (hmoves m hnm (by omega))

/-- A thread in the middle of a function that could get on again and again gets on. -/
theorem advances (hnodup : cpus.Nodup) (hfair : r.Fair) (hi : i ∈ cpus) (hfree : l ≠ .free)
    (hexcl : l ≠ .exclusive) (hloc : (r.thread n i).loc = l)
    (hcan : (∀ m, n ≤ m → (r.thread m i).loc = l) →
      ∀ m, n ≤ m → ∃ k, m ≤ k ∧ (r.state k).CanMove cpus i) :
    ∃ m, n ≤ m ∧ (r.thread m i).loc = l ∧ (r.state m).CanMove cpus i ∧
      (r.state m).excl.next cpus i = some (r.state (m + 1)).excl ∧
      (r.state (m + 1)).inHost = (r.state m).inHost := by
  have hagain (hstays : ∀ m, n ≤ m → (r.thread m i).loc = l) :
      ∃ᶠ m in atTop, (r.state m).CanMove cpus i := by
    refine frequently_atTop.mpr fun m => ?_
    obtain ⟨k, hk, hcan⟩ := hcan hstays (max n m) (le_max_left n m)
    exact ⟨k, (le_max_right n m).trans hk, hcan⟩
  obtain ⟨m, hnm, ⟨he, hmove⟩, hm⟩ := FairRuns.exists_move (hfair.moves i hi)
    (fun m hnm => loc_of_not_moves hnodup hfree hexcl hloc hnm) hagain
  obtain ⟨-, hnext, hhost⟩ := GrantState.step_next (r.step m _ he)
  exact ⟨m, hnm, hm, hmove, hnext, hhost⟩

theorem advances_always (hnodup : cpus.Nodup) (hfair : r.Fair) (hi : i ∈ cpus) (hfree : l ≠ .free)
    (hexcl : l ≠ .exclusive) (hloc : (r.thread n i).loc = l) {Q : ExclState → Prop}
    (hwaits : ∀ m, n ≤ m → (r.thread m i).loc = l → (r.state m).excl.waits i = false)
    (hnext : ∀ m, n ≤ m → (r.thread m i).loc = l → ∃ u, (r.state m).excl.next cpus i = some u ∧ Q u) :
    ∃ m, n ≤ m ∧ (r.thread m i).loc = l ∧ Q (r.state (m + 1)).excl ∧
      (r.state (m + 1)).inHost = (r.state m).inHost := by
  have hcan (hstays : ∀ m, n ≤ m → (r.thread m i).loc = l) (m : ℕ) (hm : n ≤ m) :
      ∃ k, m ≤ k ∧ (r.state k).CanMove cpus i := by
    obtain ⟨u, hu, -⟩ := hnext m hm (hstays m hm)
    exact ⟨m, le_rfl, (r.inv hnodup m).canMove (hwaits m hm (hstays m hm)) hu⟩
  obtain ⟨m, hnm, hm, -, hsome, hhost⟩ := advances hnodup hfair hi hfree hexcl hloc hcan
  obtain ⟨u, hu, hQ⟩ := hnext m hnm hm
  rw [hu] at hsome
  exact ⟨m, hnm, hm, Option.some.inj hsome ▸ hQ, hhost⟩

theorem mem_of_loc (hnodup : cpus.Nodup) (h : (r.thread n i).loc ≠ .free) : i ∈ cpus := by
  induction n with
  | zero =>
    rw [thread, r.start] at h
    exact absurd rfl h
  | succ n ih =>
    cases he : r.event n with
    | none =>
      rw [thread, r.idle n he] at h
      exact ih h
    | some e =>
      obtain ⟨k, act⟩ := e
      have hstep := r.step n _ he
      by_cases hik : i = k
      · by_contra hmem
        rw [GrantState.step, if_pos (hik ▸ hmem)] at hstep
        cases hstep
      · rw [thread, GrantState.step_other_loc (r.inv hnodup n) hstep hik] at h
        exact ih h

/-! ### The parts of a request -/

theorem scan_ends (hnodup : cpus.Nodup) (hfair : r.Fair) {rest : List ℕ} {c : ℕ}
    (hloc : (r.thread n i).loc = .exScan rest c) :
    ∃ m, n ≤ m ∧ ((r.thread m i).loc = .exWait ∨ (r.thread m i).loc = .exclusive) := by
  induction rest generalizing n c with
  | nil =>
    have hi := mem_of_loc hnodup (r := r) (n := n) (i := i) (by simp [hloc])
    obtain ⟨m, hm, -, hout, -⟩ := advances_always hnodup hfair hi (by simp) (by simp) hloc
      (fun m _ hm => by rw [waits, show ((r.state m).excl.threads i).loc = _ from hm])
      fun m _ hm => next_exScan_nil cpus hm
    exact ⟨m + 1, by omega, hout⟩
  | cons j rest ih =>
    have hi := mem_of_loc hnodup (r := r) (n := n) (i := i) (by simp [hloc])
    obtain ⟨m, hm, -, ⟨c', hrest⟩, -⟩ := advances_always hnodup hfair hi (by simp) (by simp) hloc
      (fun m _ hm => by rw [waits, show ((r.state m).excl.threads i).loc = _ from hm])
      fun m _ hm => next_exScan_cons cpus hm
    obtain ⟨m', hm', hout⟩ := ih hrest
    exact ⟨m', by omega, hout⟩

/-- While a thread is waited for, the section stays where it waits. -/
theorem wait_stays (hnodup : cpus.Nodup) (hloc : (r.thread n i).loc = .exWait)
    (hwaiter : ∀ m, n ≤ m → (r.thread m j).hasWaiter = true) (hm : n ≤ m) :
    (r.thread m i).loc = .exWait := by
  induction m, hm using Nat.le_induction with
  | base => exact hloc
  | succ m hm ih =>
    refine loc_succ hnodup (by simp) (by simp) ih fun ⟨_, _, hwaits, _⟩ => ?_
    have hinv := r.inv hnodup m
    have hstage := hinv.counted.stage i
    rw [show ((r.state m).excl.threads i).loc = _ from ih] at hstage
    have hpending : (r.state m).excl.pendingCpus = (r.state m).excl.waiters cpus + 1 := hstage
    have hle : ¬ (r.state m).excl.pendingCpus > 1 := by
      rw [waits, show ((r.state m).excl.threads i).loc = _ from ih] at hwaits
      simpa using hwaits
    have hnone := hinv.counted.no_waiter (by omega) j
    exact absurd ((hwaiter m hm).symm.trans hnone) (by decide)

theorem waited_loc (hnodup : cpus.Nodup) (hwaiter : (r.thread n j).hasWaiter = true) :
    (r.thread n j).Executes ∧ (r.thread n j).running = true ∨ (r.thread n j).loc = .startSet ∨
      (r.thread n j).loc = .startRead ∨ (r.thread n j).loc = .startLock ∨ (r.thread n j).loc = .endSet ∨
      (r.thread n j).loc = .endRead ∨ (r.thread n j).loc = .endLock := by
  have hmarks : (r.thread n j).Marks := (r.inv hnodup n).marks j
  have hanswers : (r.thread n j).Answers := (r.inv hnodup n).answers j
  unfold CpuThread.Marks at hmarks
  have hrunning := hanswers hwaiter
  cases hloc : (r.thread n j).loc with
  | free =>
    simp only [hloc] at hmarks hrunning
    have hrun : (r.thread n j).running = true := hrunning.resolve_right (by simp)
    exact .inl ⟨⟨hloc, hmarks hrun⟩, hrun⟩
  | startSet => simp
  | startRead => simp
  | startLock => simp
  | endSet => simp
  | endRead => simp
  | endLock => simp
  | _ =>
    simp only [hloc] at hmarks hrunning
    simp [hmarks] at hrunning

section Waited

variable (hnodup : cpus.Nodup) (hfair : r.Fair) (hloc : (r.thread n i).loc = .exWait)
  (hwaiter : ∀ m, n ≤ m → (r.thread m j).hasWaiter = true)

include hnodup hwaiter

theorem waited_pending (hm : n ≤ m) : (r.state m).excl.pendingCpus ≠ 0 :=
  ((r.inv hnodup m).counted.waiter (hwaiter m hm)).2

include hfair in
/-- A thread that is waited for gets from one place to the next while nobody scans. -/
theorem waited_advances (hm : n ≤ m) (hl : (r.thread m j).loc = l) (hfree : l ≠ .free)
    (hexcl : l ≠ .exclusive) {Q : ExclState → Prop}
    (hwaits : ∀ k, (r.thread k j).loc = l → (r.state k).excl.waits j = false)
    (hnext : ∀ k, n ≤ k → (r.thread k j).loc = l → ∃ u, (r.state k).excl.next cpus j = some u ∧ Q u) :
    ∃ k, m ≤ k ∧ Q (r.state (k + 1)).excl ∧ (r.state (k + 1)).inHost j = (r.state k).inHost j ∧
      (r.thread k j).loc = l := by
  have hj : j ∈ cpus := ((r.inv hnodup m).counted.waiter (hwaiter m hm)).1
  obtain ⟨k, hk, hkl, hQ, hhost⟩ := advances_always hnodup hfair hj hfree hexcl hl
    (fun k _ hk => hwaits k hk) fun k hmk hk => hnext k (hm.trans hmk) hk
  exact ⟨k, hk, hQ, congrFun hhost j, hkl⟩

include hloc

theorem waited_lock (hm : n ≤ m) : (r.state m).excl.lock = none := by
  have hwait := wait_stays hnodup hloc hwaiter hm
  refine (r.inv hnodup m).lock_free (i := i) ?_ ?_
  · rw [show ((r.state m).excl.threads i).loc = _ from hwait]
    trivial
  · rw [show ((r.state m).excl.threads i).loc = _ from hwait]
    exact id

include hfair

/-- In `cpu_exec_end` it is not waited for much longer. -/
theorem not_waited_ending (hm : n ≤ m) :
    (r.thread m j).loc ≠ .endSet ∧ (r.thread m j).loc ≠ .endRead ∧ (r.thread m j).loc ≠ .endLock := by
  have hlock : ∀ m, n ≤ m → (r.thread m j).loc ≠ .endLock := by
    intro m hm hl
    obtain ⟨k, hk, hnone, -⟩ := waited_advances hnodup hfair hwaiter hm hl (by simp) (by simp)
      (fun k hk => by rw [waits, show ((r.state k).excl.threads j).loc = _ from hk])
      fun k hnk hk => next_endLock hk (waited_lock hnodup hloc hwaiter hnk) (hwaiter k hnk)
    exact absurd ((hwaiter (k + 1) (by omega)).symm.trans hnone) (by decide)
  have hread : ∀ m, n ≤ m → (r.thread m j).loc ≠ .endRead := by
    intro m hm hl
    obtain ⟨k, hk, hnext, -⟩ := waited_advances hnodup hfair hwaiter hm hl (by simp) (by simp)
      (fun k hk => by rw [waits, show ((r.state k).excl.threads j).loc = _ from hk])
      fun k hnk hk => next_endRead hk (waited_pending hnodup hwaiter hnk)
    exact hlock (k + 1) (by omega) hnext
  refine ⟨fun hl => ?_, hread m hm, hlock m hm⟩
  obtain ⟨k, hk, hnext, -⟩ := waited_advances hnodup hfair hwaiter hm hl (by simp) (by simp)
    (fun k hk => by rw [waits, show ((r.state k).excl.threads j).loc = _ from hk])
    fun k hnk hk => next_endSet hk
  exact hread (k + 1) (by omega) hnext

/-- From `cpu_exec_start` it gets into translated code. -/
theorem waited_starting (hm : n ≤ m)
    (hl : (r.thread m j).loc = .startSet ∨ (r.thread m j).loc = .startRead ∨ (r.thread m j).loc = .startLock) :
    ∃ k, m ≤ k ∧ (r.state k).InTranslated j := by
  have hlock : ∀ m, n ≤ m → (r.thread m j).loc = .startLock → ∃ k, m ≤ k ∧ (r.state k).InTranslated j := by
    intro m hm hl
    obtain ⟨k, hk, hexec, hhost, hkl⟩ := waited_advances hnodup hfair hwaiter hm hl (by simp) (by simp)
      (fun k hk => by rw [waits, show ((r.state k).excl.threads j).loc = _ from hk])
      fun k hnk hk => next_startLock hk (waited_lock hnodup hloc hwaiter hnk) (hwaiter k hnk)
    refine ⟨k + 1, by omega, hexec, hhost.trans ((r.inv hnodup k).not_inHost fun h => ?_)⟩
    exact absurd (h.1.symm.trans hkl) (by simp)
  have hread : ∀ m, n ≤ m → (r.thread m j).loc = .startRead → ∃ k, m ≤ k ∧ (r.state k).InTranslated j := by
    intro m hm hl
    obtain ⟨k, hk, hnext, -⟩ := waited_advances hnodup hfair hwaiter hm hl (by simp) (by simp)
      (fun k hk => by rw [waits, show ((r.state k).excl.threads j).loc = _ from hk])
      fun k hnk hk => next_startRead hk (waited_pending hnodup hwaiter hnk)
    obtain ⟨k', hk', hin⟩ := hlock (k + 1) (by omega) hnext
    exact ⟨k', by omega, hin⟩
  obtain hl | hl | hl := hl
  · obtain ⟨k, hk, hnext, -⟩ := waited_advances hnodup hfair hwaiter hm hl (by simp) (by simp)
      (fun k hk => by rw [waits, show ((r.state k).excl.threads j).loc = _ from hk])
      fun k hnk hk => next_startSet hk
    obtain ⟨k', hk', hin⟩ := hread (k + 1) (by omega) hnext
    exact ⟨k', by omega, hin⟩
  · exact hread m hm hl
  · exact hlock m hm hl

end Waited

/-- A thread that is waited for, kicked and not stuck in a host function says that it stops. -/
theorem waited_leaves (hnodup : cpus.Nodup) (hfair : r.Fair) (hleaves : r.LeavesKicked)
    (hstuck : ∀ j n, ¬ r.Stuck j n) (hloc : (r.thread n i).loc = .exWait) :
    ∃ m, n ≤ m ∧ (r.thread m j).hasWaiter = false := by
  by_contra hnone
  have hwaiter : ∀ m, n ≤ m → (r.thread m j).hasWaiter = true := fun m hm => by
    by_contra hw
    exact hnone ⟨m, hm, Bool.eq_false_iff.mpr hw⟩
  have hplace : ∀ m, n ≤ m → (r.thread m j).Executes ∧ (r.thread m j).running = true ∨
      (r.thread m j).loc = .startSet ∨ (r.thread m j).loc = .startRead ∨ (r.thread m j).loc = .startLock := by
    intro m hm
    have hending := not_waited_ending hnodup hfair hloc hwaiter hm
    have hplace := waited_loc hnodup (hwaiter m hm)
    tauto
  -- it comes to translated code again and again
  have htranslated : ∀ m, n ≤ m → ∃ k, m ≤ k ∧ (r.state k).InTranslated j := by
    intro m hm
    obtain ⟨k, hmk, hk⟩ : ∃ k, m ≤ k ∧ ¬ ((r.state k).inHost j = true ∧ (r.thread k j).running = true) := by
      by_contra hall
      exact hstuck j m fun k hk => not_not.mp fun hne => hall ⟨k, hk, hne⟩
    obtain ⟨hexec, hrunning⟩ | hstart := hplace k (hm.trans hmk)
    · exact ⟨k, hmk, hexec, Bool.eq_false_iff.mpr fun hhost => hk ⟨hhost, hrunning⟩⟩
    · obtain ⟨k', hk', hin⟩ := waited_starting hnodup hfair hloc hwaiter (hm.trans hmk) hstart
      exact ⟨k', hmk.trans hk', hin⟩
  have hends := hleaves j <| frequently_atTop.mpr fun m => by
    obtain ⟨k, hk, hin⟩ := htranslated (max n m) (le_max_left n m)
    exact ⟨k, (le_max_right n m).trans hk, hin, hwaiter k ((le_max_left n m).trans hk)⟩
  obtain ⟨m, hm, he⟩ := frequently_atTop.mp hends n
  exact (not_waited_ending hnodup hfair hloc hwaiter (hm.trans m.le_succ)).1
    (GrantState.step_cpuExecEnd (r.step m _ he))

/-- While the section waits nobody else is waited for in addition. -/
theorem not_waited_succ (hnodup : cpus.Nodup) (hloc : (r.thread n i).loc = .exWait)
    (hwaiter : (r.thread n j).hasWaiter = false) : (r.thread (n + 1) j).hasWaiter = false := by
  have hinv := r.inv hnodup n
  cases he : r.event n with
  | none =>
    rw [thread, r.idle n he]
    exact hwaiter
  | some e =>
    obtain ⟨k, act⟩ := e
    have hstep := r.step n _ he
    by_cases hjk : j = k
    · subst hjk
      by_cases hact : act = .next
      · subst hact
        exact next_not_waited (GrantState.step_next hstep).2.1 hwaiter
      · exact (GrantState.step_call hinv hstep hact).2.2.1.trans hwaiter
    · obtain ⟨-, hsame | ⟨hscans, -⟩⟩ := GrantState.step_other hinv hstep hjk
      · rw [thread, hsame]
        exact hwaiter
      · have hki : k = i := hinv.counted.unique hscans.inSection
          (by rw [show ((r.state n).excl.threads i).loc = _ from hloc]; trivial)
        rw [hki, show ((r.state n).excl.threads i).loc = _ from hloc] at hscans
        exact hscans.elim

theorem wait_ends (hnodup : cpus.Nodup) (hfair : r.Fair) (hleaves : r.LeavesKicked)
    (hstuck : ∀ j n, ¬ r.Stuck j n) (hloc : (r.thread n i).loc = .exWait) :
    ∃ m, n ≤ m ∧ (r.thread m i).loc = .exclusive := by
  have hi := mem_of_loc hnodup (r := r) (n := n) (i := i) (by simp [hloc])
  have hthread : ∀ {m}, (r.thread m i).loc = .exWait → ((r.state m).excl.threads i).loc = .exWait := id
  have hcan (hstays : ∀ m, n ≤ m → (r.thread m i).loc = .exWait) (m : ℕ) (hm : n ≤ m) :
      ∃ k, m ≤ k ∧ (r.state k).CanMove cpus i := by
    -- one CPU after the other stops for good
    have hall : ∀ l : List ℕ, ∃ k, m ≤ k ∧ ∀ j ∈ l, ∀ k', k ≤ k' → (r.thread k' j).hasWaiter = false := by
      intro l
      induction l with
      | nil => exact ⟨m, le_rfl, by simp⟩
      | cons j l ih =>
        obtain ⟨k, hmk, hk⟩ := ih
        obtain ⟨k', hkk', hk'⟩ := waited_leaves (j := j) hnodup hfair hleaves hstuck
          (hstays k (hm.trans hmk))
        refine ⟨k', hmk.trans hkk', forall_mem_cons.mpr ⟨fun k'' hle => ?_, fun x hx k'' hle =>
          hk x hx k'' (hkk'.trans hle)⟩⟩
        induction k'', hle using Nat.le_induction with
        | base => exact hk'
        | succ k'' hle ih => exact not_waited_succ hnodup (hstays k'' (by omega)) ih
    obtain ⟨k, hmk, hk⟩ := hall cpus
    have hinv := r.inv hnodup k
    have hwait := hthread (hstays k (hm.trans hmk))
    have hstage := hinv.counted.stage i
    rw [hwait] at hstage
    have hzero : (r.state k).excl.waiters cpus = 0 :=
      countP_eq_zero.mpr fun j hj => Bool.eq_false_iff.mp (hk j hj k le_rfl)
    have hpending : (r.state k).excl.pendingCpus = (r.state k).excl.waiters cpus + 1 := hstage
    have hlock := hinv.lock_free (i := i) (by rw [hwait]; trivial) (by rw [hwait]; exact id)
    obtain ⟨u, hu, -⟩ := next_exWait cpus hwait hlock (by omega)
    refine ⟨k, hmk, hinv.canMove ?_ hu⟩
    rw [waits, hwait]
    exact decide_eq_false (by omega)
  obtain ⟨m, hm, hwait, ⟨-, hwaits, -⟩, hnext, -⟩ :=
    advances hnodup hfair hi (by simp) (by simp) hloc hcan
  have hle : ¬ (r.state m).excl.pendingCpus > 1 := by
    rw [waits, hthread hwait] at hwaits
    simpa using hwaits
  have hlock := (r.inv hnodup m).lock_free (i := i) (by rw [hthread hwait]; trivial)
    (by rw [hthread hwait]; exact id)
  obtain ⟨u, hu, hout⟩ := next_exWait cpus hwait hlock hle
  rw [hu] at hnext
  refine ⟨m + 1, by omega, ?_⟩
  rw [thread, ← Option.some.inj hnext]
  exact hout

theorem section_ends (hnodup : cpus.Nodup) (hfair : r.Fair) (hleaves : r.LeavesKicked)
    (hstuck : ∀ j n, ¬ r.Stuck j n) (hin : (r.thread n i).loc.InSection) :
    ∃ m, n ≤ m ∧ (r.state m).excl.pendingCpus = 0 := by
  have hend : ∀ n, (r.thread n i).loc = .exEnd → ∃ m, n ≤ m ∧ (r.state m).excl.pendingCpus = 0 := by
    intro n hloc
    have hi := mem_of_loc hnodup (r := r) (n := n) (i := i) (by simp [hloc])
    obtain ⟨m, hm, -, hzero, -⟩ := advances_always hnodup hfair hi (by simp) (by simp) hloc
      (fun m _ hm => by rw [waits, show ((r.state m).excl.threads i).loc = _ from hm])
      fun m _ hm => next_exEnd hm ((r.inv hnodup m).lock_free (i := i)
        (by rw [show ((r.state m).excl.threads i).loc = _ from hm]; trivial)
        (by rw [show ((r.state m).excl.threads i).loc = _ from hm]; exact id))
    exact ⟨m + 1, by omega, hzero⟩
  have hexclusive : ∀ n, (r.thread n i).loc = .exclusive →
      ∃ m, n ≤ m ∧ (r.state m).excl.pendingCpus = 0 := by
    intro n hloc
    obtain ⟨m, hm, he⟩ := hfair.ends i n hloc
    obtain ⟨k, hk, hzero⟩ := hend (m + 1) (GrantState.step_endExclusive (r.step m _ he))
    exact ⟨k, by omega, hzero⟩
  have hwait : ∀ n, (r.thread n i).loc = .exWait → ∃ m, n ≤ m ∧ (r.state m).excl.pendingCpus = 0 := by
    intro n hloc
    obtain ⟨m, hm, hout⟩ := wait_ends hnodup hfair hleaves hstuck hloc
    obtain ⟨k, hk, hzero⟩ := hexclusive m hout
    exact ⟨k, by omega, hzero⟩
  cases hloc : (r.thread n i).loc with
  | exScan rest c =>
    obtain ⟨m, hm, hout | hout⟩ := scan_ends hnodup hfair hloc
    · obtain ⟨k, hk, hzero⟩ := hwait m hout
      exact ⟨k, by omega, hzero⟩
    · obtain ⟨k, hk, hzero⟩ := hexclusive m hout
      exact ⟨k, by omega, hzero⟩
  | exWait => exact hwait n hloc
  | exclusive => exact hexclusive n hloc
  | exEnd => exact hend n hloc
  | _ =>
    rw [hloc] at hin
    exact hin.elim

theorem lock_ends (hnodup : cpus.Nodup) (hfair : r.Fair) (hleaves : r.LeavesKicked)
    (hstuck : ∀ j n, ¬ r.Stuck j n) (hloc : (r.thread n i).loc = .exLock) :
    ∃ m, n ≤ m ∧ (r.thread m i).loc = .exScan cpus 0 := by
  have hi := mem_of_loc hnodup (r := r) (n := n) (i := i) (by simp [hloc])
  have hthread : ∀ {m}, (r.thread m i).loc = .exLock → ((r.state m).excl.threads i).loc = .exLock := id
  have hcan (hstays : ∀ m, n ≤ m → (r.thread m i).loc = .exLock) (m : ℕ) (hm : n ≤ m) :
      ∃ k, m ≤ k ∧ (r.state k).CanMove cpus i := by
    obtain ⟨k, hk, hzero⟩ : ∃ k, m ≤ k ∧ (r.state k).excl.pendingCpus = 0 := by
      by_cases hpending : (r.state m).excl.pendingCpus = 0
      · exact ⟨m, le_rfl, hpending⟩
      · obtain ⟨w, hw⟩ := (r.inv hnodup m).counted.pending.mp hpending
        exact section_ends hnodup hfair hleaves hstuck hw
    have hinv := r.inv hnodup k
    have hk' := hthread (hstays k (hm.trans hk))
    obtain ⟨u, hu, -⟩ := next_exLock cpus hk' (hinv.lock_free_of_idle hzero) hzero
    refine ⟨k, hk, hinv.canMove ?_ hu⟩
    rw [waits, hk']
    simpa using hzero
  obtain ⟨m, hm, hlock, ⟨-, hwaits, -⟩, hnext, -⟩ :=
    advances hnodup hfair hi (by simp) (by simp) hloc hcan
  have hzero : (r.state m).excl.pendingCpus = 0 := by
    rw [waits, hthread hlock] at hwaits
    simpa using hwaits
  obtain ⟨u, hu, hout⟩ :=
    next_exLock cpus hlock ((r.inv hnodup m).lock_free_of_idle hzero) hzero
  rw [hu] at hnext
  refine ⟨m + 1, by omega, ?_⟩
  rw [thread, ← Option.some.inj hnext]
  exact hout

/-- A request is granted if no thread stays in a host function for ever. -/
theorem granted (hnodup : cpus.Nodup) (hfair : r.Fair) (hleaves : r.LeavesKicked)
    (hstuck : ∀ j n, ¬ r.Stuck j n) (hcall : r.event n = some (i, .startExclusive)) :
    ∃ m, n < m ∧ (r.thread m i).loc = .exclusive := by
  obtain ⟨m, hm, hscan⟩ := lock_ends hnodup hfair hleaves hstuck
    (GrantState.step_startExclusive (r.step n _ hcall))
  obtain ⟨k, hk, hout | hout⟩ := scan_ends hnodup hfair hscan
  · obtain ⟨k', hk', hout⟩ := wait_ends hnodup hfair hleaves hstuck hout
    exact ⟨k', by omega, hout⟩
  · exact ⟨k, by omega, hout⟩

/-- No request returns while a thread that is marked as running stays in a host function. -/
theorem not_exclusive_of_stuck (hnodup : cpus.Nodup) (hstuck : r.Stuck j n) (hm : n ≤ m) :
    (r.thread m i).loc ≠ .exclusive := by
  intro hloc
  have hinv := r.inv hnodup m
  obtain ⟨hhost, hrunning⟩ := hstuck m hm
  have hexposed : ((r.state m).excl.threads j).Exposed := ⟨hrunning, .inl (hinv.hosted j hhost).1⟩
  have hexcl : ((r.state m).excl.threads i).loc = .exclusive := hloc
  have hwaiter := hinv.counted.scanned (i := i) (by rw [hexcl]; trivial) hexposed (by rw [hexcl]; trivial)
  have hstage := hinv.counted.stage i
  rw [hexcl] at hstage
  exact absurd (hwaiter.symm.trans (hinv.counted.no_waiter hstage j)) (by decide)

theorem exists_call (hnodup : cpus.Nodup) (h : (r.state m).Requests i) :
    ∃ n, n < m ∧ r.event n = some (i, .startExclusive) ∧ ∀ k, n < k → k ≤ m → (r.state k).Requests i := by
  induction m with
  | zero =>
    rw [r.start] at h
    exact h.elim
  | succ m ih =>
    by_cases hm : (r.state m).Requests i
    · obtain ⟨n, hn, hcall, hall⟩ := ih hm
      refine ⟨n, by omega, hcall, fun k hk hle => ?_⟩
      obtain rfl | hlt := Nat.eq_or_lt_of_le hle
      · exact h
      · exact hall k hk (by omega)
    · have hcall : r.event m = some (i, .startExclusive) := by
        have hinv := r.inv hnodup m
        cases he : r.event m with
        | none =>
          rw [r.idle m he] at h
          exact absurd h hm
        | some e =>
          obtain ⟨k, act⟩ := e
          have hstep := r.step m _ he
          by_cases hik : i = k
          · subst hik
            by_cases hact : act = .next
            · subst hact
              exact absurd (GrantState.requests_of_next (GrantState.step_next hstep).2.1 h) hm
            · rw [(GrantState.step_call hinv hstep hact).2.2.2 h]
          · refine absurd ?_ hm
            rw [GrantState.Requests, GrantState.step_other_loc hinv hstep hik] at h
            exact h
      refine ⟨m, by omega, hcall, fun k hk hle => ?_⟩
      obtain rfl : k = m + 1 := by omega
      exact h

theorem requests_succ (hnodup : cpus.Nodup) (h : (r.state m).Requests i) :
    (r.state (m + 1)).Requests i ∨ (r.thread (m + 1) i).loc = .exclusive := by
  have hinv := r.inv hnodup m
  have hfree : (r.thread m i).loc ≠ .free := fun hloc => by
    rw [GrantState.Requests, show ((r.state m).excl.threads i).loc = _ from hloc] at h
    exact h
  have hexcl : (r.thread m i).loc ≠ .exclusive := fun hloc => by
    rw [GrantState.Requests, show ((r.state m).excl.threads i).loc = _ from hloc] at h
    exact h
  by_cases hmoves : r.Moves i m
  · obtain ⟨he, -, hwaits, -⟩ := hmoves
    obtain ⟨-, hnext, -⟩ := GrantState.step_next (r.step m _ he)
    unfold GrantState.Requests thread
    cases hloc : ((r.state m).excl.threads i).loc with
    | exLock =>
      have hzero : (r.state m).excl.pendingCpus = 0 := by simpa [waits, hloc] using hwaits
      obtain ⟨u, hu, hout⟩ := next_exLock cpus hloc (hinv.lock_free_of_idle hzero) hzero
      rw [← Option.some.inj (hu.symm.trans hnext), hout]
      exact .inl trivial
    | exScan rest c =>
      cases rest with
      | nil =>
        obtain ⟨u, hu, hout⟩ := next_exScan_nil cpus hloc
        rw [← Option.some.inj (hu.symm.trans hnext)]
        obtain hout | hout := hout
        · exact .inl (by rw [hout]; trivial)
        · exact .inr hout
      | cons j rest =>
        obtain ⟨u, hu, c', hout⟩ := next_exScan_cons cpus hloc
        rw [← Option.some.inj (hu.symm.trans hnext), hout]
        exact .inl trivial
    | exWait =>
      have hle : ¬ (r.state m).excl.pendingCpus > 1 := by simpa [waits, hloc] using hwaits
      have hlock := hinv.lock_free (i := i) (by rw [hloc]; trivial) (by rw [hloc]; exact id)
      obtain ⟨u, hu, hout⟩ := next_exWait cpus hloc hlock hle
      rw [← Option.some.inj (hu.symm.trans hnext)]
      exact .inr hout
    | _ =>
      rw [GrantState.Requests, hloc] at h
      exact h.elim
  · have hsame := loc_succ hnodup hfree hexcl rfl hmoves
    refine .inl ?_
    rw [GrantState.Requests, show ((r.state (m + 1)).excl.threads i).loc = _ from hsame]
    exact h

end GrantRun

/-- In every fair run in which kicked threads leave translated code, all calls of `start_exclusive` return if and
only if no thread that is marked as running stays in a host function for ever while there is a request. -/
theorem startExclusive_returns_iff (cpus : List ℕ) (hnodup : cpus.Nodup) (r : GrantRun cpus) (hfair : r.Fair)
    (hleaves : r.LeavesKicked) :
    (∀ i n, r.event n = some (i, .startExclusive) → ∃ m, n < m ∧ (r.thread m i).loc = .exclusive) ↔
      ∀ j n, r.Stuck j n → ∀ i m, n ≤ m → ¬ (r.state m).Requests i := by
  constructor
  · intro hreturns j n hstuck i m hm hrequest
    obtain ⟨n', hn', hcall, hall⟩ := GrantRun.exists_call hnodup hrequest
    obtain ⟨k, hk, hloc⟩ := hreturns i n' hcall
    by_cases hkm : k ≤ m
    · have hk' := hall k hk hkm
      rw [GrantState.Requests, show ((r.state k).excl.threads i).loc = _ from hloc] at hk'
      exact hk'
    · exact GrantRun.not_exclusive_of_stuck hnodup hstuck (by omega) hloc
  · intro hcond i n hcall
    by_contra hnever
    have hrequests : ∀ m, n < m → (r.state m).Requests i := by
      intro m hm
      induction m, hm using Nat.le_induction with
      | base =>
        rw [GrantState.Requests, GrantState.step_startExclusive (r.step n _ hcall)]
        trivial
      | succ m hm ih =>
        refine (GrantRun.requests_succ hnodup ih).resolve_right fun hloc => hnever ⟨m + 1, ?_, hloc⟩
        exact Nat.lt_succ_of_lt hm
    refine hnever (GrantRun.granted hnodup hfair hleaves (fun j n' hstuck => ?_) hcall)
    exact hcond j n' hstuck i (max n' (n + 1)) (le_max_left _ _) (hrequests _ (le_max_right n' (n + 1)))

/-- Thread 0 calls a host function from guest code and never comes back. Thread 1 comes out of guest code and
requests an exclusive section. -/
def blockedCall : List (ℕ × GrantAct) :=
  [(0, .enter), (0, .next), (0, .next), (0, .callHost), (1, .enter), (1, .next), (1, .next), (1, .cpuExecEnd),
    (1, .next), (1, .next), (1, .startExclusive), (1, .next), (1, .next), (1, .next), (1, .next), (1, .next)]

def blockedRun : GrantRun [0, 1] := FairRuns.Run.ofList blockedCall GrantState.start rfl

theorem blockedRun_stops (n : ℕ) (h : 16 ≤ n) : blockedRun.state n = blockedRun.state 16 :=
  FairRuns.stateAt_length h

theorem blockedRun_not_exclusive (n i : ℕ) : (blockedRun.thread n i).loc ≠ .exclusive := by
  intro hloc
  have hi : i ∈ [0, 1] := GrantRun.mem_of_loc (by decide) (n := n) (by rw [hloc]; simp)
  have hbound : (blockedRun.thread (min n 16) i).loc = .exclusive := by
    obtain hle | hle := Nat.le_total n 16
    · rwa [min_eq_left hle]
    · rw [min_eq_right hle, GrantRun.thread, ← blockedRun_stops n hle]
      exact hloc
  have hle : min n 16 ≤ 16 := min_le_right _ _
  generalize min n 16 = m at hbound hle
  simp only [mem_cons, not_mem_nil, or_false] at hi
  obtain rfl | rfl := hi <;> interval_cases m <;> cases hbound

theorem blockedRun_fair : blockedRun.Fair := by
  refine ⟨fun i hi hcan => ?_, fun i n hloc => absurd hloc (blockedRun_not_exclusive n i)⟩
  obtain ⟨hawake, -, t, hnext⟩ := blockedRun.of_frequently blockedRun_stops
      (P := fun s : GrantState => s.CanMove [0, 1] i) hcan
  simp only [mem_cons, not_mem_nil, or_false] at hi
  obtain rfl | rfl := hi
  · cases hnext
  · cases hawake

theorem blockedRun_leavesKicked : blockedRun.LeavesKicked := by
  intro i hin
  obtain ⟨⟨-, hhost⟩, hwaiter⟩ := blockedRun.of_frequently blockedRun_stops
    (P := fun s : GrantState => s.InTranslated i ∧ (s.excl.threads i).hasWaiter = true) hin
  have hi := ((blockedRun.inv (by decide) 16).counted.waiter hwaiter).1
  simp only [mem_cons, not_mem_nil, or_false] at hi
  obtain rfl | rfl := hi
  · cases hhost
  · cases hwaiter

/-- The request of thread 1 is never granted. -/
theorem startExclusive_blocked :
    blockedRun.Fair ∧ blockedRun.LeavesKicked ∧ blockedRun.event 10 = some (1, .startExclusive) ∧
      ∀ m, (blockedRun.thread m 1).loc ≠ .exclusive :=
  ⟨blockedRun_fair, blockedRun_leavesKicked, rfl, fun m => blockedRun_not_exclusive m 1⟩

def returningCall : List (ℕ × GrantAct) :=
  [(0, .enter), (0, .next), (0, .next), (0, .callHost), (1, .startExclusive), (1, .next), (1, .next), (1, .next),
    (1, .next), (1, .next), (0, .returnHost), (0, .cpuExecEnd), (0, .next), (0, .next), (0, .next), (1, .next),
    (1, .endExclusive), (1, .next)]

def returningRun : GrantRun [0, 1] := FairRuns.Run.ofList returningCall GrantState.start rfl

theorem returningRun_stops (n : ℕ) (h : 18 ≤ n) : returningRun.state n = returningRun.state 18 :=
  FairRuns.stateAt_length h

theorem returningRun_fair : returningRun.Fair := by
  constructor
  · intro i hi hcan
    obtain ⟨-, -, t, hnext⟩ := returningRun.of_frequently returningRun_stops
      (P := fun s : GrantState => s.CanMove [0, 1] i) hcan
    simp only [mem_cons, not_mem_nil, or_false] at hi
    obtain rfl | rfl := hi
    · cases hnext
    · cases hnext
  · intro i n hloc
    have hi : i ∈ [0, 1] := GrantRun.mem_of_loc (by decide) (n := n) (by rw [hloc]; simp)
    obtain hle | hle := Nat.lt_or_ge n 18
    · simp only [mem_cons, not_mem_nil, or_false] at hi
      obtain rfl | rfl := hi <;> interval_cases n <;> first | exact ⟨16, by omega, rfl⟩ | cases hloc
    · rw [GrantRun.thread, returningRun_stops n hle] at hloc
      simp only [mem_cons, not_mem_nil, or_false] at hi
      obtain rfl | rfl := hi <;> cases hloc

/-- No thread stays in a host function in that run, so every request is granted. -/
theorem startExclusive_returns_iff_returning :
    returningRun.event 4 = some (1, .startExclusive) ∧
      ∀ i n, returningRun.event n = some (i, .startExclusive) →
        ∃ m, n < m ∧ (returningRun.thread m i).loc = .exclusive := by
  refine ⟨rfl, (startExclusive_returns_iff [0, 1] (by decide) returningRun returningRun_fair ?_).mpr ?_⟩
  · intro i hin
    obtain ⟨-, hwaiter⟩ := returningRun.of_frequently returningRun_stops
      (P := fun s : GrantState => s.InTranslated i ∧ (s.excl.threads i).hasWaiter = true) hin
    exact absurd rfl ((returningRun.inv (by decide) 18).counted.waiter hwaiter).2
  · intro j n hstuck i m hm
    have hend := (hstuck (max n 18) (le_max_left n 18)).2
    rw [GrantRun.thread, returningRun_stops _ (le_max_right n 18)] at hend
    have hj := (returningRun.inv (by decide) 18).member j hend
    simp only [mem_cons, not_mem_nil, or_false] at hj
    obtain rfl | rfl := hj <;> cases hend

end Iqemu64
