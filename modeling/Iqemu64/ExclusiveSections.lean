import Mathlib.Data.List.Nodup
import Mathlib.Data.List.Count
import Iqemu64.Runs

/-!
# Exclusive sections

Threads run guest code in activations of `cpu_xloop`, between `cpu_exec_start` and `cpu_exec_end`. Before an
exclusive section a thread waits until no other one is marked as running. Each step of a thread is one access
to what the threads share without the lock, or one section under the lock. The scan of the CPU list reads the
marks of the others one by one while it holds the lock.
-/

namespace Iqemu64
open List

inductive ExclLoc where
  | free
  | startSet | startRead | startLock | startIdle
  | endSet | endRead | endLock
  | exLock | exScan (rest : List ℕ) (runningCpus : ℕ) | exWait
  | exclusive
  | exEnd

structure CpuThread where
  loc : ExclLoc
  frames : List Bool
  running : Bool
  hasWaiter : Bool

structure ExclState where
  threads : ℕ → CpuThread
  pendingCpus : ℕ
  lock : Option ℕ

inductive ExclAct where
  | enter | leave
  | cpuExecStart | cpuExecEnd | startExclusive | endExclusive
  | next

namespace ExclState

def set (s : ExclState) (i : ℕ) (th : CpuThread) : ExclState :=
  { s with threads := Function.update s.threads i th }

def call (s : ExclState) (i : ℕ) (act : ExclAct) : Option ExclState :=
  let th := s.threads i
  match act, th.loc, th.frames with
  | .enter, .free, [] => some (s.set i { th with frames := [false] })
  | .enter, .free, true :: fs => some (s.set i { th with frames := false :: true :: fs })
  | .leave, .free, false :: fs => some (s.set i { th with frames := fs })
  | .cpuExecStart, .free, false :: _ => some (s.set i { th with loc := .startSet })
  | .cpuExecEnd, .free, true :: _ => some (s.set i { th with loc := .endSet })
  | .startExclusive, .free, [] => some (s.set i { th with loc := .exLock })
  | .startExclusive, .free, false :: _ => some (s.set i { th with loc := .exLock })
  | .endExclusive, .exclusive, _ => some (s.set i { th with loc := .exEnd })
  | _, _, _ => none

def started (s : ExclState) (i : ℕ) (running : Bool) : ExclState :=
  let th := s.threads i
  s.set i { th with loc := .free, frames := true :: th.frames.tail, running := running }

def ended (s : ExclState) (i : ℕ) : ExclState :=
  let th := s.threads i
  s.set i { th with loc := .free, frames := false :: th.frames.tail }

def next (cpus : List ℕ) (s : ExclState) (i : ℕ) : Option ExclState :=
  let th := s.threads i
  match th.loc with
  | .startSet => some (s.set i { th with loc := .startRead, running := true })
  | .startRead =>
    if s.pendingCpus = 0 then some (s.started i th.running)
    else some (s.set i { th with loc := .startLock })
  | .startLock =>
    if s.lock ≠ none then none
    else if th.hasWaiter then some (s.started i th.running)
    else if s.pendingCpus = 0 then some (s.started i true)
    else some (s.set i { th with loc := .startIdle, running := false })
  | .startIdle =>
    if s.lock ≠ none then none
    else if s.pendingCpus = 0 then some (s.started i true)
    else some s
  | .endSet => some (s.set i { th with loc := .endRead, running := false })
  | .endRead =>
    if s.pendingCpus = 0 then some (s.ended i) else some (s.set i { th with loc := .endLock })
  | .endLock =>
    if s.lock ≠ none then none
    else if th.hasWaiter then
      some { s.set i { th with loc := .free, frames := false :: th.frames.tail, hasWaiter := false } with
        pendingCpus := s.pendingCpus - 1 }
    else some (s.ended i)
  | .exLock =>
    if s.lock ≠ none then none
    else if s.pendingCpus ≠ 0 then some s
    else some { s.set i { th with loc := .exScan cpus 0 } with pendingCpus := 1, lock := some i }
  | .exScan (j :: rest) n =>
    if (s.threads j).running then
      some ((s.set j { s.threads j with hasWaiter := true }).set i { th with loc := .exScan rest (n + 1) })
    else some (s.set i { th with loc := .exScan rest n })
  | .exScan [] n =>
    some { s.set i { th with loc := if n + 1 > 1 then .exWait else .exclusive } with
      pendingCpus := n + 1, lock := none }
  | .exWait =>
    if s.lock ≠ none then none
    else if s.pendingCpus > 1 then some s
    else some (s.set i { th with loc := .exclusive })
  | .exEnd =>
    if s.lock ≠ none then none
    else some { s.set i { th with loc := .free } with pendingCpus := 0 }
  | .free => none
  | .exclusive => none

def step (cpus : List ℕ) (s : ExclState) (e : ℕ × ExclAct) : Option ExclState :=
  if e.1 ∉ cpus then none
  else match e.2 with
    | .next => s.next cpus e.1
    | act => s.call e.1 act

/-- No thread has been in `cpu_xloop` yet. -/
def start : ExclState where
  threads := fun _ => ⟨.free, [], false, false⟩
  pendingCpus := 0
  lock := none

end ExclState

def CpuThread.Executes (th : CpuThread) : Prop := th.loc = .free ∧ th.frames.head? = some true

def ExclState.Excludes (s : ExclState) : Prop :=
  ∀ i j, (s.threads i).loc = .exclusive → j ≠ i → ¬ (s.threads j).Executes

/-- `cpu_xloop` is called only by a thread that has no activation of it. -/
def Unnested (s : ExclState) (e : ℕ × ExclAct) : Prop :=
  e.2 = .enter → (s.threads e.1).frames = []

/-! ### The invariant -/

namespace CpuThread

def Local (th : CpuThread) : Prop :=
  match th.loc with
  | .free => (th.frames = [] ∨ th.frames = [false]) ∧ th.running = false ∨
    th.frames = [true] ∧ th.running = true
  | .startSet => th.frames = [false] ∧ th.running = false
  | .startIdle => th.frames = [false] ∧ th.running = false
  | .startRead => th.frames = [false] ∧ th.running = true
  | .startLock => th.frames = [false] ∧ th.running = true
  | .endSet => th.frames = [true] ∧ th.running = true
  | .endRead => th.frames = [true] ∧ th.running = false
  | .endLock => th.frames = [true] ∧ th.running = false
  | _ => (th.frames = [] ∨ th.frames = [false]) ∧ th.running = false

def Committed (th : CpuThread) : Prop := (th.loc = .free ∨ th.loc = .endSet) ∧ th.frames = [true]

end CpuThread

namespace ExclLoc

def InSection : ExclLoc → Prop
  | exScan _ _ => True
  | exWait => True
  | exclusive => True
  | exEnd => True
  | _ => False

def Scans : ExclLoc → Prop
  | exScan _ _ => True
  | _ => False

def Passed (j : ℕ) : ExclLoc → Prop
  | exScan rest _ => j ∉ rest
  | _ => True

theorem Scans.inSection {l : ExclLoc} (h : l.Scans) : l.InSection := by
  cases l with
  | exScan rest n => trivial
  | _ => exact h.elim

end ExclLoc

namespace CpuThread

variable {th : CpuThread}

theorem Local.running_of_committed (h : th.Local) (hc : th.Committed) : th.running = true := by
  obtain ⟨hloc | hloc, hframes⟩ := hc
  · rw [Local, hloc] at h
    simpa [hframes] using h
  · rw [Local, hloc] at h
    exact h.2

theorem Committed.not_inSection (h : th.Committed) : ¬ th.loc.InSection := by
  obtain ⟨hloc | hloc, -⟩ := h
  · rw [hloc]
    exact id
  · rw [hloc]
    exact id

theorem Local.of_inSection (h : th.Local) (hin : th.loc.InSection) :
    (th.frames = [] ∨ th.frames = [false]) ∧ th.running = false := by
  unfold Local at h
  cases hloc : th.loc with
  | exScan rest n => rwa [hloc] at h
  | exWait => rwa [hloc] at h
  | exclusive => rwa [hloc] at h
  | exEnd => rwa [hloc] at h
  | _ =>
    rw [hloc] at hin
    exact hin.elim

/-- The place in the section does not matter to the thread itself. -/
theorem Local.move (h : th.Local) (hin : th.loc.InSection) {l : ExclLoc} (hl : l.InSection) :
    ({ th with loc := l } : CpuThread).Local := by
  have hout := h.of_inSection hin
  unfold Local
  cases l with
  | exScan rest n => exact hout
  | exWait => exact hout
  | exclusive => exact hout
  | exEnd => exact hout
  | _ => exact hl.elim

end CpuThread

namespace ExclState

def waiters (cpus : List ℕ) (s : ExclState) : ℕ := cpus.countP fun j => (s.threads j).hasWaiter

def Stage (cpus : List ℕ) (s : ExclState) : ExclLoc → Prop
  | .exScan rest n => n = s.waiters cpus ∧ rest.Nodup ∧ rest ⊆ cpus ∧
    ∀ j ∈ rest, (s.threads j).hasWaiter = false
  | .exWait => s.pendingCpus = s.waiters cpus + 1
  | .exclusive => s.waiters cpus = 0
  | .exEnd => s.waiters cpus = 0
  | _ => True

structure Inv (cpus : List ℕ) (s : ExclState) : Prop where
  threadsLocal : ∀ i, (s.threads i).Local
  member : ∀ {i}, (s.threads i).frames ≠ [] → i ∈ cpus
  unique : ∀ {i j}, (s.threads i).loc.InSection → (s.threads j).loc.InSection → i = j
  pending : s.pendingCpus ≠ 0 ↔ ∃ i, (s.threads i).loc.InSection
  lock : ∀ i, s.lock = some i ↔ (s.threads i).loc.Scans
  waiter : ∀ {j}, (s.threads j).hasWaiter = true → j ∈ cpus ∧ s.pendingCpus ≠ 0
  stage : ∀ i, s.Stage cpus (s.threads i).loc
  scanned : ∀ {i j}, (s.threads i).loc.InSection → (s.threads j).Committed →
    (s.threads i).loc.Passed j → (s.threads j).hasWaiter = true

variable {cpus : List ℕ} {s t : ExclState} {i j : ℕ} {th : CpuThread}

theorem threads_set_self : (s.set i th).threads i = th := Function.update_self _ _ _

theorem threads_set_of_ne (h : j ≠ i) : (s.set i th).threads j = s.threads j :=
  Function.update_of_ne h _ _

/-- Something that holds of the new thread and did of the others. -/
theorem forall_threads_set {P : ℕ → CpuThread → Prop} (h : ∀ j, j ≠ i → P j (s.threads j)) (hi : P i th) :
    ∀ j, P j ((s.set i th).threads j) := by
  intro j
  by_cases hj : j = i
  · subst hj
    rw [threads_set_self]
    exact hi
  · rw [threads_set_of_ne hj]
    exact h j hj

structure Counted (C : CpuThread → Prop) (cpus : List ℕ) (s : ExclState) : Prop where
  unique : ∀ {i j}, (s.threads i).loc.InSection → (s.threads j).loc.InSection → i = j
  pending : s.pendingCpus ≠ 0 ↔ ∃ i, (s.threads i).loc.InSection
  lock : ∀ i, s.lock = some i ↔ (s.threads i).loc.Scans
  waiter : ∀ {j}, (s.threads j).hasWaiter = true → j ∈ cpus ∧ s.pendingCpus ≠ 0
  stage : ∀ i, s.Stage cpus (s.threads i).loc
  scanned : ∀ {i j}, (s.threads i).loc.InSection → C (s.threads j) →
    (s.threads i).loc.Passed j → (s.threads j).hasWaiter = true

theorem Inv.counted (h : Inv cpus s) : Counted CpuThread.Committed cpus s :=
  ⟨h.unique, h.pending, h.lock, h.waiter, h.stage, h.scanned⟩

theorem Counted.inv (h : Counted CpuThread.Committed cpus s) (hlocal : ∀ i, (s.threads i).Local)
    (hmember : ∀ i, (s.threads i).frames ≠ [] → i ∈ cpus) : Inv cpus s :=
  ⟨hlocal, hmember _, h.unique, h.pending, h.lock, h.waiter, h.stage, h.scanned⟩

theorem Counted.start (C : CpuThread → Prop) (cpus : List ℕ) : Counted C cpus ExclState.start := by
  refine ⟨fun h => h.elim, ?_, ?_, fun h => (nomatch h), fun i => trivial, fun h => h.elim⟩
  · exact ⟨fun h => absurd rfl h, fun ⟨i, hi⟩ => hi.elim⟩
  · exact fun i => ⟨fun h => (nomatch h), fun h => h.elim⟩

theorem Inv.start (cpus : List ℕ) : Inv cpus ExclState.start :=
  (Counted.start _ cpus).inv (fun _ => .inl ⟨.inl rfl, rfl⟩) fun _ h => absurd rfl h

variable {C : CpuThread → Prop}

theorem Counted.no_waiter (h : Counted C cpus s) (hzero : s.waiters cpus = 0) (j : ℕ) :
    (s.threads j).hasWaiter = false := by
  rw [waiters, countP_eq_zero] at hzero
  by_contra hwaiter
  rw [Bool.not_eq_false] at hwaiter
  exact hzero j (h.waiter hwaiter).1 hwaiter

/-- Exclusive sections exclude guest code where the invariant holds. -/
theorem Inv.excludes (h : Inv cpus s) : s.Excludes := by
  intro i j hi _ ⟨hloc, hframes⟩
  have hcommitted : (s.threads j).Committed := by
    have hlocal := h.threadsLocal j
    rw [CpuThread.Local, hloc] at hlocal
    refine ⟨.inl hloc, ?_⟩
    obtain ⟨hout | hout, -⟩ | hin := hlocal
    · rw [hout] at hframes
      cases hframes
    · rw [hout] at hframes
      cases hframes
    · exact hin.1
  have hstage := h.stage i
  have hwaiter := h.scanned (i := i) (by rw [hi]; trivial) hcommitted (by rw [hi]; trivial)
  rw [hi] at hstage
  exact absurd (hwaiter.symm.trans (h.counted.no_waiter hstage j)) (by decide)

/-! ### Steps outside of the section -/

theorem waiters_congr (hw : ∀ j, (t.threads j).hasWaiter = (s.threads j).hasWaiter) :
    t.waiters cpus = s.waiters cpus := by
  unfold waiters
  congr 1
  funext j
  rw [hw]

variable {l : ExclLoc}

theorem stage_congr (hw : ∀ j, (t.threads j).hasWaiter = (s.threads j).hasWaiter)
    (hpending : t.pendingCpus = s.pendingCpus) (h : s.Stage cpus l) : t.Stage cpus l := by
  cases l with
  | exScan rest n =>
    obtain ⟨hn, hnodup, hsub, hfree⟩ := h
    exact ⟨hn.trans (waiters_congr hw).symm, hnodup, hsub, fun j hj => (hw j).trans (hfree j hj)⟩
  | exWait =>
    rw [Stage, hpending, waiters_congr hw]
    exact h
  | exclusive => exact (waiters_congr hw).trans h
  | exEnd => exact (waiters_congr hw).trans h
  | _ => trivial

theorem stage_of_not_inSection (h : ¬ l.InSection) : s.Stage cpus l := by
  cases l with
  | exScan rest n => exact absurd trivial h
  | exWait => exact absurd trivial h
  | exclusive => exact absurd trivial h
  | exEnd => exact absurd trivial h
  | _ => trivial

/-- A thread that is and stays outside of the section moves. If it gets `C` there is no section, or the thread
is waited for. -/
theorem Counted.quiet (h : Counted C cpus s) (hw : th.hasWaiter = (s.threads i).hasWaiter)
    (hout : ¬ (s.threads i).loc.InSection) (hout' : ¬ th.loc.InSection)
    (hC : C th → s.pendingCpus = 0 ∨ (s.threads i).hasWaiter = true ∨ C (s.threads i)) :
    Counted C cpus (s.set i th) := by
  have hwaits : ∀ k, ((s.set i th).threads k).hasWaiter = (s.threads k).hasWaiter :=
    forall_threads_set (P := fun k th' => th'.hasWaiter = (s.threads k).hasWaiter) (fun _ _ => rfl) hw
  -- the threads in the section are as before
  have hsame : ∀ k, ((s.set i th).threads k).loc.InSection ↔ (s.threads k).loc.InSection :=
    forall_threads_set (P := fun k th' => th'.loc.InSection ↔ (s.threads k).loc.InSection)
      (fun _ _ => Iff.rfl) ⟨fun h => absurd h hout', fun h => absurd h hout⟩
  have hne : ∀ {k}, (s.threads k).loc.InSection → k ≠ i := fun hk heq => hout (heq ▸ hk)
  refine ⟨fun {k l} hk hl => ?_, ?_, ?_, fun {k} hk => ?_, ?_, fun {k l} hk hl hpassed => ?_⟩
  · exact h.unique ((hsame k).mp hk) ((hsame l).mp hl)
  · exact h.pending.trans (exists_congr fun k => (hsame k).symm)
  · refine forall_threads_set (P := fun k th' => s.lock = some k ↔ th'.loc.Scans) (fun k _ => h.lock k) ?_
    exact (h.lock i).trans ⟨fun hs => absurd hs.inSection hout, fun hs => absurd hs.inSection hout'⟩
  · rw [hwaits] at hk
    exact h.waiter hk
  · refine forall_threads_set (P := fun _ th' => (s.set i th).Stage cpus th'.loc)
      (fun k _ => stage_congr hwaits rfl (h.stage k)) ?_
    exact stage_of_not_inSection hout'
  · have hk' := (hsame k).mp hk
    rw [threads_set_of_ne (hne hk')] at hpassed
    rw [hwaits]
    by_cases hli : l = i
    · subst hli
      rw [threads_set_self] at hl
      obtain hzero | hwaiter | hc := hC hl
      · exact absurd hzero (h.pending.mpr ⟨k, hk'⟩)
      · exact hwaiter
      · exact h.scanned hk' hc hpassed
    · rw [threads_set_of_ne hli] at hl
      exact h.scanned hk' hl hpassed

theorem Inv.quiet (h : Inv cpus s) (hi : i ∈ cpus) (hw : th.hasWaiter = (s.threads i).hasWaiter)
    (hlocal : th.Local) (hout : ¬ (s.threads i).loc.InSection) (hout' : ¬ th.loc.InSection)
    (hcommitted : th.Committed →
      s.pendingCpus = 0 ∨ (s.threads i).hasWaiter = true ∨ (s.threads i).Committed) :
    Inv cpus (s.set i th) := by
  refine (h.counted.quiet hw hout hout' hcommitted).inv ?_ ?_
  · exact forall_threads_set (P := fun _ th' => th'.Local) (fun k _ => h.threadsLocal k) hlocal
  · exact forall_threads_set (P := fun k th' => th'.frames ≠ [] → k ∈ cpus) (fun k _ hk => h.member hk)
      fun _ => hi

theorem countP_update {cpus : List ℕ} (hnodup : cpus.Nodup) {f g : ℕ → Bool} {j : ℕ} (hj : j ∈ cpus)
    (hf : f j = false) (hg : g j = true) (hfg : ∀ k, k ≠ j → g k = f k) :
    cpus.countP g = cpus.countP f + 1 := by
  induction cpus with
  | nil => cases hj
  | cons k cpus ih =>
    obtain ⟨hk, hnodup⟩ := nodup_cons.mp hnodup
    rw [countP_cons, countP_cons]
    by_cases hkj : k = j
    · subst hkj
      have hrest : cpus.countP g = cpus.countP f :=
        countP_congr fun l hl => by rw [hfg l (ne_of_mem_of_not_mem hl hk)]
      simp [hrest, hf, hg]
    · have hmem : j ∈ cpus := (mem_cons.mp hj).resolve_left fun heq => hkj heq.symm
      rw [ih hnodup hmem, hfg k hkj]
      omega

theorem Counted.release (h : Counted C cpus s) (hnodup : cpus.Nodup) (hi : i ∈ cpus)
    (hloc : (s.threads i).loc = .endLock) (hlock : s.lock = none)
    (hwaiter : (s.threads i).hasWaiter = true)
    (hout : ¬ th.loc.InSection) (hw : th.hasWaiter = false) (hC : ¬ C th) :
    Counted C cpus { s.set i th with pendingCpus := s.pendingCpus - 1 } := by
  have hsame : ∀ k, ((s.set i th).threads k).loc.InSection ↔ (s.threads k).loc.InSection :=
    forall_threads_set (P := fun k th' => th'.loc.InSection ↔ (s.threads k).loc.InSection)
      (fun _ _ => Iff.rfl) ⟨fun h => absurd h hout, fun h => by rw [hloc] at h; exact h.elim⟩
  have hcount : s.waiters cpus = (s.set i th).waiters cpus + 1 := by
    refine countP_update hnodup hi ?_ hwaiter fun k hk => ?_
    · rw [threads_set_self]
      exact hw
    · rw [threads_set_of_ne hk]
  -- the section waits, as the lock is free and there is a waiter
  obtain ⟨m, hm⟩ := h.pending.mp (h.waiter hwaiter).2
  have hmloc : (s.threads m).loc = .exWait := by
    have hstage := h.stage m
    cases hmloc : (s.threads m).loc with
    | exScan rest n =>
      have hholds := (h.lock m).mpr (by rw [hmloc]; trivial)
      rw [hlock] at hholds
      cases hholds
    | exWait => rfl
    | exclusive =>
      rw [hmloc] at hstage
      exact absurd (hcount.symm.trans hstage) (by omega)
    | exEnd =>
      rw [hmloc] at hstage
      exact absurd (hcount.symm.trans hstage) (by omega)
    | _ =>
      rw [hmloc] at hm
      exact hm.elim
  have hpending : s.pendingCpus = s.waiters cpus + 1 := by
    have hstage := h.stage m
    rwa [hmloc] at hstage
  have hmi : m ≠ i := by
    rintro rfl
    rw [hloc] at hmloc
    cases hmloc
  have hnone : ∀ k, ¬ ((s.set i th).threads k).loc.Scans := by
    refine forall_threads_set (P := fun _ th' => ¬ th'.loc.Scans) (fun k _ hk => ?_)
      fun hk => hout hk.inSection
    have hholds := (h.lock k).mpr hk
    rw [hlock] at hholds
    cases hholds
  refine ⟨fun {k l} hk hl => ?_, ?_, ?_, fun {k} => ?_, ?_, fun {k l} hk hl _ => ?_⟩
  · exact h.unique ((hsame k).mp hk) ((hsame l).mp hl)
  · refine ⟨fun _ => ⟨m, (hsame m).mpr hm⟩, fun _ => ?_⟩
    show s.pendingCpus - 1 ≠ 0
    omega
  · refine fun k => ⟨fun hk => ?_, fun hk => absurd hk (hnone k)⟩
    rw [show s.lock = some k from hk] at hlock
    cases hlock
  · refine forall_threads_set (P := fun k th' => th'.hasWaiter = true → k ∈ cpus ∧ s.pendingCpus - 1 ≠ 0)
      (fun k _ hk => ⟨(h.waiter hk).1, by omega⟩) (fun hk => absurd (hw.symm.trans hk) (by decide)) k
  · intro k
    by_cases hkm : k = m
    · subst hkm
      show Stage cpus _ ((s.set i th).threads k).loc
      rw [threads_set_of_ne hmi, hmloc]
      show s.pendingCpus - 1 = (s.set i th).waiters cpus + 1
      omega
    · exact stage_of_not_inSection fun hk => hkm (h.unique ((hsame k).mp hk) hm)
  · change C ((s.set i th).threads l) at hl
    show ((s.set i th).threads l).hasWaiter = true
    have hli : l ≠ i := by
      rintro rfl
      rw [threads_set_self] at hl
      exact hC hl
    rw [threads_set_of_ne hli] at hl ⊢
    exact h.scanned hm hl (by rw [hmloc]; trivial)

theorem Inv.release (h : Inv cpus s) (hnodup : cpus.Nodup) (hi : i ∈ cpus)
    (hloc : (s.threads i).loc = .endLock) (hlock : s.lock = none)
    (hwaiter : (s.threads i).hasWaiter = true) :
    Inv cpus { s.set i { s.threads i with
        loc := .free, frames := false :: (s.threads i).frames.tail, hasWaiter := false } with
      pendingCpus := s.pendingCpus - 1 } := by
  have hlocal := h.threadsLocal i
  rw [CpuThread.Local, hloc] at hlocal
  refine (h.counted.release hnodup hi hloc hlock hwaiter id rfl fun hc => ?_).inv ?_ ?_
  · exact absurd hc.2 (by simp)
  · refine forall_threads_set (P := fun _ th' => th'.Local) (fun k _ => h.threadsLocal k) ?_
    exact .inl ⟨.inr (by rw [hlocal.1]; rfl), hlocal.2⟩
  · exact forall_threads_set (P := fun k th' => th'.frames ≠ [] → k ∈ cpus) (fun k _ hk => h.member hk)
      fun _ => hi

/-! ### Steps of the section -/

/-- The only thread in the section goes on. The others may be waited for. -/
theorem Counted.advance (h : Counted C cpus s) (hin : (s.threads i).loc.InSection)
    (hsame : ∀ k, k ≠ i → (t.threads k).loc = (s.threads k).loc)
    (hi : (t.threads i).loc = l) (hl : l.InSection) (hpending : t.pendingCpus ≠ 0)
    (hlock : ∀ k, t.lock = some k ↔ k = i ∧ l.Scans)
    (hmember : ∀ k, (t.threads k).hasWaiter = true → k ∈ cpus) (hstage : t.Stage cpus l)
    (hscanned : ∀ j, C (t.threads j) → l.Passed j → (t.threads j).hasWaiter = true) :
    Counted C cpus t := by
  have hothers : ∀ k, k ≠ i → ¬ (t.threads k).loc.InSection := fun k hk hk' => by
    rw [hsame k hk] at hk'
    exact hk (h.unique hk' hin)
  have honly : ∀ {k}, (t.threads k).loc.InSection → k = i := fun {k} hk => by
    by_contra hne
    exact hothers k hne hk
  refine ⟨fun hk hl => (honly hk).trans (honly hl).symm, ?_, fun k => ?_,
    fun {k} hk => ⟨hmember k hk, hpending⟩, fun k => ?_, fun {k j} hk hj hpassed => ?_⟩
  · exact ⟨fun _ => ⟨i, by rw [hi]; exact hl⟩, fun _ => hpending⟩
  · rw [hlock]
    constructor
    · rintro ⟨rfl, hscans⟩
      rw [hi]
      exact hscans
    · intro hk
      have hki := honly hk.inSection
      rw [hki, hi] at hk
      exact ⟨hki, hk⟩
  · by_cases hk : k = i
    · rw [hk, hi]
      exact hstage
    · exact stage_of_not_inSection (hothers k hk)
  · rw [honly hk, hi] at hpassed
    exact hscanned j hj hpassed

theorem Counted.move (h : Counted C cpus s) (hC : ∀ {th}, C th → ¬ th.loc.InSection)
    (hin : (s.threads i).loc.InSection) (l : ExclLoc) (hl : l.InSection) {pendingCpus : ℕ}
    {lock : Option ℕ} (hpending : pendingCpus ≠ 0)
    (hlock : ∀ k, lock = some k ↔ k = i ∧ l.Scans)
    (hstage : Stage cpus { s with pendingCpus := pendingCpus } l)
    (hscanned : ∀ j, C (s.threads j) → l.Passed j → (s.threads j).hasWaiter = true) :
    Counted C cpus
      { s.set i { s.threads i with loc := l } with pendingCpus := pendingCpus, lock := lock } := by
  have hwaits : ∀ k, ((s.set i { s.threads i with loc := l }).threads k).hasWaiter =
      (s.threads k).hasWaiter :=
    forall_threads_set (P := fun k th' => th'.hasWaiter = (s.threads k).hasWaiter) (fun _ _ => rfl) rfl
  have hself : ((s.set i { s.threads i with loc := l }).threads i).loc = l := by rw [threads_set_self]
  refine h.advance hin (fun k hk => ?_) hself hl hpending hlock (fun k hk => ?_) ?_
    fun j hj hpassed => (hwaits j).trans (hscanned j ?_ hpassed)
  · show ((s.set i { s.threads i with loc := l }).threads k).loc = _
    rw [threads_set_of_ne hk]
  · exact (h.waiter ((hwaits k).symm.trans hk)).1
  · exact stage_congr (s := { s with pendingCpus := pendingCpus })
      (t := { s.set i { s.threads i with loc := l } with pendingCpus := pendingCpus, lock := lock })
      hwaits rfl hstage
  · have hji : j ≠ i := by
      rintro rfl
      exact hC hj (by rw [hself]; exact hl)
    change C ((s.set i { s.threads i with loc := l }).threads j) at hj
    rwa [threads_set_of_ne hji] at hj

theorem Counted.lock_iff (h : Counted C cpus s) (hin : (s.threads i).loc.InSection) (k : ℕ) :
    s.lock = some k ↔ k = i ∧ (s.threads i).loc.Scans := by
  rw [h.lock]
  constructor
  · intro hk
    obtain rfl := h.unique hk.inSection hin
    exact ⟨rfl, hk⟩
  · rintro ⟨rfl, hscans⟩
    exact hscans

theorem Counted.acquire (h : Counted C cpus s) (hC : ∀ {th}, C th → ¬ th.loc.InSection)
    (hnodup : cpus.Nodup) (hpending : s.pendingCpus = 0) (hmember : ∀ j, C (s.threads j) → j ∈ cpus) :
    Counted C cpus
      { s.set i { s.threads i with loc := .exScan cpus 0 } with pendingCpus := 1, lock := some i } := by
  let th : CpuThread := { s.threads i with loc := .exScan cpus 0 }
  have hnone : ∀ k, ¬ (s.threads k).loc.InSection := fun k hk => h.pending.mpr ⟨k, hk⟩ hpending
  have hfree : ∀ k, (s.threads k).hasWaiter = false := fun k => by
    by_contra hk
    rw [Bool.not_eq_false] at hk
    exact (h.waiter hk).2 hpending
  have hwaits : ∀ k, ((s.set i th).threads k).hasWaiter = false :=
    forall_threads_set (P := fun _ th' => th'.hasWaiter = false) (fun k _ => hfree k) (hfree i)
  have honly : ∀ {k}, ((s.set i th).threads k).loc.InSection → k = i := fun {k} hk => by
    by_contra hne
    rw [threads_set_of_ne hne] at hk
    exact hnone k hk
  have hself : ((s.set i th).threads i).loc = .exScan cpus 0 := by rw [threads_set_self]
  refine ⟨fun hk hl => (honly hk).trans (honly hl).symm, ?_, fun k => ?_,
    fun {k} hk => ?_, fun k => ?_, fun {k j} hk hj hpassed => ?_⟩
  · exact ⟨fun _ => ⟨i, show ((s.set i th).threads i).loc.InSection by rw [hself]; trivial⟩,
      fun _ => Nat.one_ne_zero⟩
  · show some i = some k ↔ ((s.set i th).threads k).loc.Scans
    constructor
    · intro hk
      cases hk
      rw [hself]
      trivial
    · exact fun hk => congrArg some (honly hk.inSection).symm
  · exact absurd ((hwaits k).symm.trans hk) (by decide)
  · by_cases hk : k = i
    · subst hk
      show Stage cpus _ ((s.set k th).threads k).loc
      rw [hself]
      refine ⟨?_, hnodup, List.Subset.refl _, fun j _ => hwaits j⟩
      refine (countP_eq_zero.mpr fun j _ => ?_).symm
      exact Bool.eq_false_iff.mp (hwaits j)
    · exact stage_of_not_inSection fun hk' => hk (honly hk')
  · -- no thread with the property is missing from the list
    change C ((s.set i th).threads j) at hj
    change ((s.set i th).threads k).loc.Passed j at hpassed
    rw [honly hk, hself] at hpassed
    have hji : j ≠ i := by
      rintro rfl
      exact hC hj (by rw [hself]; trivial)
    rw [threads_set_of_ne hji] at hj
    exact absurd (hmember j hj) hpassed

theorem Counted.finish (h : Counted C cpus s) (hloc : (s.threads i).loc = .exEnd) (hlock : s.lock = none) :
    Counted C cpus { s.set i { s.threads i with loc := .free } with pendingCpus := 0 } := by
  let th : CpuThread := { s.threads i with loc := .free }
  have hin : (s.threads i).loc.InSection := by rw [hloc]; trivial
  have hstage := h.stage i
  rw [hloc] at hstage
  have hfree : ∀ k, (s.threads k).hasWaiter = false := h.no_waiter hstage
  have hwaits : ∀ k, ((s.set i th).threads k).hasWaiter = false :=
    forall_threads_set (P := fun _ th' => th'.hasWaiter = false) (fun k _ => hfree k) (hfree i)
  have hnone : ∀ k, ¬ ((s.set i th).threads k).loc.InSection :=
    forall_threads_set (P := fun _ th' => ¬ th'.loc.InSection)
      (fun k hk hk' => hk (h.unique hk' hin)) id
  refine ⟨fun hk => absurd hk (hnone _), ?_, fun k => ?_, fun {k} hk => ?_,
    fun k => stage_of_not_inSection (hnone k), fun hk => absurd hk (hnone _)⟩
  · exact ⟨fun hk => absurd rfl hk, fun ⟨k, hk⟩ => absurd hk (hnone k)⟩
  · refine ⟨fun hk => ?_, fun hk => absurd hk.inSection (hnone k)⟩
    rw [show s.lock = some k from hk] at hlock
    cases hlock
  · exact absurd ((hwaits k).symm.trans hk) (by decide)

theorem Counted.endExclusive (h : Counted C cpus s) (hC : ∀ {th}, C th → ¬ th.loc.InSection)
    (hloc : (s.threads i).loc = .exclusive) :
    Counted C cpus (s.set i { s.threads i with loc := .exEnd }) := by
  have hin : (s.threads i).loc.InSection := by rw [hloc]; trivial
  have hstage := h.stage i
  have hlock := h.lock_iff hin
  rw [hloc] at hstage hlock
  refine h.move hC hin .exEnd trivial (h.pending.mpr ⟨i, hin⟩) hlock hstage fun j hj _ =>
    h.scanned hin hj ?_
  rw [hloc]
  trivial

variable {n : ℕ}

theorem Counted.scanRunning (h : Counted C cpus s) (hC : ∀ {th}, C th → ¬ th.loc.InSection)
    (hnodup : cpus.Nodup) {rest : List ℕ}
    (hloc : (s.threads i).loc = .exScan (j :: rest) n) (hji : j ≠ i) :
    Counted C cpus ((s.set j { s.threads j with hasWaiter := true }).set i
      { s.threads i with loc := .exScan rest (n + 1) }) := by
  have hin : (s.threads i).loc.InSection := by rw [hloc]; trivial
  have hstage := h.stage i
  have hlock := h.lock_iff hin
  rw [hloc] at hstage hlock
  obtain ⟨hn, hrest, hsub, hfree⟩ := hstage
  rw [nodup_cons] at hrest
  rw [forall_mem_cons] at hfree
  have hj : j ∈ cpus := hsub mem_cons_self
  let u := s.set j { s.threads j with hasWaiter := true }
  let v := u.set i { s.threads i with loc := .exScan rest (n + 1) }
  have hvj : v.threads j = { s.threads j with hasWaiter := true } := by
    rw [threads_set_of_ne hji, threads_set_self]
  have hvi : v.threads i = { s.threads i with loc := .exScan rest (n + 1) } := threads_set_self
  have hloc' : (v.threads i).loc = .exScan rest (n + 1) := by rw [hvi]
  have hvk : ∀ {k}, k ≠ i → k ≠ j → v.threads k = s.threads k := fun hki hkj => by
    rw [threads_set_of_ne hki, threads_set_of_ne hkj]
  have hwaits : ∀ {k}, k ≠ j → (v.threads k).hasWaiter = (s.threads k).hasWaiter := by
    intro k hkj
    by_cases hki : k = i
    · subst hki
      rw [hvi]
    · rw [hvk hki hkj]
  have hcount : v.waiters cpus = s.waiters cpus + 1 :=
    countP_update hnodup hj hfree.1 (by rw [hvj]) fun k hk => hwaits hk
  have hmono : ∀ k, (s.threads k).hasWaiter = true → (v.threads k).hasWaiter = true := fun k hk => by
    by_cases hkj : k = j
    · rw [hkj, hvj]
    · exact (hwaits hkj).trans hk
  refine h.advance hin (fun k hk => ?_) hloc' trivial (h.pending.mpr ⟨i, hin⟩) hlock
    (fun k hk => ?_) ?_ fun k hk hpassed => ?_
  · by_cases hkj : k = j
    · subst hkj
      rw [hvj]
    · rw [hvk hk hkj]
  · by_cases hkj : k = j
    · exact hkj ▸ hj
    · exact (h.waiter ((hwaits hkj).symm.trans hk)).1
  · refine ⟨by rw [hcount, hn], hrest.2, fun k hk => hsub (mem_cons_of_mem _ hk), fun k hk => ?_⟩
    exact (hwaits (ne_of_mem_of_not_mem hk hrest.1)).trans (hfree.2 k hk)
  · by_cases hkj : k = j
    · rw [hkj, hvj]
    · have hki : k ≠ i := by
        rintro rfl
        exact hC hk (by rw [hloc']; trivial)
      change C (v.threads k) at hk
      rw [hvk hki hkj] at hk
      refine hmono k (h.scanned hin hk ?_)
      rw [hloc]
      exact fun hmem => (mem_cons.mp hmem).elim hkj hpassed

theorem Counted.scanIdle (h : Counted C cpus s) (hC : ∀ {th}, C th → ¬ th.loc.InSection)
    {rest : List ℕ} (hloc : (s.threads i).loc = .exScan (j :: rest) n) (hj : ¬ C (s.threads j)) :
    Counted C cpus (s.set i { s.threads i with loc := .exScan rest n }) := by
  have hin : (s.threads i).loc.InSection := by rw [hloc]; trivial
  have hstage := h.stage i
  have hlock := h.lock_iff hin
  rw [hloc] at hstage hlock
  obtain ⟨hn, hrest, hsub, hfree⟩ := hstage
  refine h.move hC hin (.exScan rest n) trivial (h.pending.mpr ⟨i, hin⟩) hlock
    ⟨hn, (nodup_cons.mp hrest).2, fun k hk => hsub (mem_cons_of_mem _ hk),
      fun k hk => hfree k (mem_cons_of_mem _ hk)⟩ fun k hk hpassed => ?_
  refine h.scanned hin hk ?_
  rw [hloc]
  intro hmem
  obtain rfl | hmem := mem_cons.mp hmem
  · exact hj hk
  · exact hpassed hmem

theorem Counted.scanEnd (h : Counted C cpus s) (hC : ∀ {th}, C th → ¬ th.loc.InSection)
    (hloc : (s.threads i).loc = .exScan [] n) :
    Counted C cpus { s.set i { s.threads i with loc := if n + 1 > 1 then .exWait else .exclusive } with
      pendingCpus := n + 1, lock := none } := by
  have hin : (s.threads i).loc.InSection := by rw [hloc]; trivial
  have hstage := h.stage i
  rw [hloc] at hstage
  have hscanned : ∀ k, C (s.threads k) → (s.threads k).hasWaiter = true := fun k hk => by
    refine h.scanned hin hk ?_
    rw [hloc]
    exact not_mem_nil
  split
  · refine h.move hC hin .exWait trivial (Nat.succ_ne_zero n) (fun k => ?_) ?_ fun k hk _ => hscanned k hk
    · exact ⟨fun hk => (nomatch hk), fun hk => hk.2.elim⟩
    · exact congrArg (· + 1) hstage.1
  · refine h.move hC hin .exclusive trivial (Nat.succ_ne_zero n) (fun k => ?_) ?_ fun k hk _ => hscanned k hk
    · exact ⟨fun hk => (nomatch hk), fun hk => hk.2.elim⟩
    · show s.waiters cpus = 0
      have hn := hstage.1
      omega

theorem Counted.waitOver (h : Counted C cpus s) (hC : ∀ {th}, C th → ¬ th.loc.InSection)
    (hloc : (s.threads i).loc = .exWait) (hpending : ¬ s.pendingCpus > 1) :
    Counted C cpus (s.set i { s.threads i with loc := .exclusive }) := by
  have hin : (s.threads i).loc.InSection := by rw [hloc]; trivial
  have hstage := h.stage i
  have hlock := h.lock_iff hin
  rw [hloc] at hstage hlock
  refine h.move hC hin .exclusive trivial (h.pending.mpr ⟨i, hin⟩) hlock ?_ fun k hk _ => h.scanned hin hk ?_
  · have hcount : s.pendingCpus = s.waiters cpus + 1 := hstage
    show s.waiters cpus = 0
    omega
  · rw [hloc]
    trivial

/-- One thread moves without a change of its activations. The others may be waited for. -/
theorem Inv.relocate (h : Inv cpus s) (hcounted : Counted CpuThread.Committed cpus t)
    (hsame : ∀ k, k ≠ i → t.threads k = { s.threads k with hasWaiter := (t.threads k).hasWaiter })
    (hlocal : (t.threads i).Local) (hframes : (t.threads i).frames = (s.threads i).frames) : Inv cpus t := by
  refine hcounted.inv (fun k => ?_) fun k hk => ?_
  · by_cases hki : k = i
    · exact hki ▸ hlocal
    · rw [hsame k hki]
      exact h.threadsLocal k
  · by_cases hki : k = i
    · rw [hki, hframes] at hk
      exact hki ▸ h.member hk
    · rw [hsame k hki] at hk
      exact h.member hk

theorem Inv.relocate_set (h : Inv cpus s) {pendingCpus : ℕ} {lock : Option ℕ}
    (hcounted : Counted CpuThread.Committed cpus
      { s.set i { s.threads i with loc := l } with pendingCpus := pendingCpus, lock := lock })
    (hlocal : ({ s.threads i with loc := l } : CpuThread).Local) :
    Inv cpus { s.set i { s.threads i with loc := l } with pendingCpus := pendingCpus, lock := lock } := by
  have hself : (s.set i { s.threads i with loc := l }).threads i = { s.threads i with loc := l } :=
    threads_set_self
  refine h.relocate hcounted (fun k hk => ?_) (hself ▸ hlocal) (by rw [hself])
  show (s.set i { s.threads i with loc := l }).threads k = _
  rw [threads_set_of_ne hk]

/-! ### Runs -/

theorem Inv.call {act : ExclAct} (h : Inv cpus s) (hi : i ∈ cpus)
    (hunnested : act = .enter → (s.threads i).frames = []) (ht : s.call i act = some t) : Inv cpus t := by
  have hlocal := h.threadsLocal i
  unfold CpuThread.Local at hlocal
  unfold ExclState.call at ht
  simp only at ht
  split at ht
  · rename_i hloc hframes
    cases ht
    rw [hloc, hframes] at hlocal
    refine h.quiet hi rfl ?_ (by rw [hloc]; exact id) (by rw [hloc]; exact id) fun hc => ?_
    · rw [CpuThread.Local, hloc]
      simpa using hlocal
    · simp [CpuThread.Committed] at hc
  · rename_i hframes
    rw [hunnested rfl] at hframes
    cases hframes
  · rename_i fs hloc hframes
    cases ht
    rw [hloc, hframes] at hlocal
    have hfs : fs = [] ∧ (s.threads i).running = false := by simpa using hlocal
    refine h.quiet hi rfl ?_ (by rw [hloc]; exact id) (by rw [hloc]; exact id) fun hc => ?_
    · rw [CpuThread.Local, hloc]
      exact .inl ⟨.inl hfs.1, hfs.2⟩
    · simp [CpuThread.Committed, hfs.1] at hc
  · rename_i fs hloc hframes
    cases ht
    rw [hloc, hframes] at hlocal
    have hfs : fs = [] ∧ (s.threads i).running = false := by simpa using hlocal
    refine h.quiet hi rfl ?_ (by rw [hloc]; exact id) id fun hc => ?_
    · exact ⟨by rw [hframes, hfs.1], hfs.2⟩
    · simp [CpuThread.Committed] at hc
  · rename_i fs hloc hframes
    cases ht
    rw [hloc, hframes] at hlocal
    have hfs : fs = [] ∧ (s.threads i).running = true := by simpa using hlocal
    refine h.quiet hi rfl ?_ (by rw [hloc]; exact id) id fun hc => ?_
    · exact ⟨by rw [hframes, hfs.1], hfs.2⟩
    · exact .inr (.inr ⟨.inl hloc, hc.2⟩)
  · rename_i hloc hframes
    cases ht
    rw [hloc, hframes] at hlocal
    refine h.quiet hi rfl ?_ (by rw [hloc]; exact id) id fun hc => ?_
    · exact ⟨.inl hframes, by simpa using hlocal⟩
    · simp [CpuThread.Committed] at hc
  · rename_i fs hloc hframes
    cases ht
    rw [hloc, hframes] at hlocal
    have hfs : fs = [] ∧ (s.threads i).running = false := by simpa using hlocal
    refine h.quiet hi rfl ?_ (by rw [hloc]; exact id) id fun hc => ?_
    · exact ⟨.inr (by rw [hframes, hfs.1]), hfs.2⟩
    · simp [CpuThread.Committed] at hc
  · rename_i hloc
    cases ht
    have hin : (s.threads i).loc.InSection := by rw [hloc]; trivial
    exact h.relocate_set (h.counted.endExclusive CpuThread.Committed.not_inSection hloc)
      ((h.threadsLocal i).move hin trivial)
  · cases ht

/-- Guest code starts when there is no section, or when the thread is waited for. -/
theorem Inv.started (h : Inv cpus s) (hi : i ∈ cpus) {running : Bool} (hrunning : running = true)
    (hframes : (s.threads i).frames = [false]) (hout : ¬ (s.threads i).loc.InSection)
    (hfree : s.pendingCpus = 0 ∨ (s.threads i).hasWaiter = true) : Inv cpus (s.started i running) := by
  refine h.quiet hi rfl ?_ hout id fun _ => hfree.elim .inl fun hw => .inr (.inl hw)
  exact .inr ⟨by rw [hframes]; rfl, hrunning⟩

theorem Inv.ended (h : Inv cpus s) (hi : i ∈ cpus) (hframes : (s.threads i).frames = [true])
    (hrunning : (s.threads i).running = false) (hout : ¬ (s.threads i).loc.InSection) :
    Inv cpus (s.ended i) := by
  refine h.quiet hi rfl ?_ hout id fun hc => ?_
  · exact .inl ⟨.inr (by rw [hframes]; rfl), hrunning⟩
  · simp [CpuThread.Committed] at hc

theorem Inv.next (h : Inv cpus s) (hnodup : cpus.Nodup) (hi : i ∈ cpus) (ht : s.next cpus i = some t) :
    Inv cpus t := by
  have hlocal := h.threadsLocal i
  unfold CpuThread.Local at hlocal
  unfold ExclState.next at ht
  simp only at ht
  cases hloc : (s.threads i).loc with
  | free => simp [hloc] at ht
  | startSet =>
    simp only [hloc] at ht hlocal
    cases ht
    refine h.quiet hi rfl ⟨hlocal.1, rfl⟩ (by rw [hloc]; exact id) id fun hc => ?_
    simp [CpuThread.Committed] at hc
  | startRead =>
    simp only [hloc] at ht hlocal
    split at ht
    · rename_i hzero
      cases ht
      exact h.started hi hlocal.2 hlocal.1 (by rw [hloc]; exact id) (.inl hzero)
    · cases ht
      refine h.quiet hi rfl hlocal (by rw [hloc]; exact id) id fun hc => ?_
      simp [CpuThread.Committed] at hc
  | startLock =>
    simp only [hloc] at ht hlocal
    split at ht
    · cases ht
    split at ht
    · rename_i hwaiter
      cases ht
      exact h.started hi hlocal.2 hlocal.1 (by rw [hloc]; exact id) (.inr hwaiter)
    split at ht
    · rename_i hzero
      cases ht
      exact h.started hi rfl hlocal.1 (by rw [hloc]; exact id) (.inl hzero)
    · cases ht
      refine h.quiet hi rfl ⟨hlocal.1, rfl⟩ (by rw [hloc]; exact id) id fun hc => ?_
      simp [CpuThread.Committed] at hc
  | startIdle =>
    simp only [hloc] at ht hlocal
    split at ht
    · cases ht
    split at ht
    · rename_i hzero
      cases ht
      exact h.started hi rfl hlocal.1 (by rw [hloc]; exact id) (.inl hzero)
    · cases ht
      exact h
  | endSet =>
    simp only [hloc] at ht hlocal
    cases ht
    refine h.quiet hi rfl ⟨hlocal.1, rfl⟩ (by rw [hloc]; exact id) id fun hc => ?_
    simp [CpuThread.Committed] at hc
  | endRead =>
    simp only [hloc] at ht hlocal
    split at ht
    · cases ht
      exact h.ended hi hlocal.1 hlocal.2 (by rw [hloc]; exact id)
    · cases ht
      refine h.quiet hi rfl hlocal (by rw [hloc]; exact id) id fun hc => ?_
      simp [CpuThread.Committed] at hc
  | endLock =>
    simp only [hloc] at ht hlocal
    split at ht
    · cases ht
    rename_i hlock
    split at ht
    · rename_i hwaiter
      cases ht
      exact h.release hnodup hi hloc (not_not.mp hlock) hwaiter
    · cases ht
      exact h.ended hi hlocal.1 hlocal.2 (by rw [hloc]; exact id)
  | exLock =>
    simp only [hloc] at ht hlocal
    split at ht
    · cases ht
    split at ht
    · cases ht
      exact h
    · rename_i hpending
      cases ht
      refine h.relocate_set ?_ hlocal
      refine h.counted.acquire CpuThread.Committed.not_inSection hnodup (not_not.mp hpending)
        fun j hj => h.member ?_
      rw [hj.2]
      exact cons_ne_nil _ _
  | exScan rest n =>
    have hin : (s.threads i).loc.InSection := by rw [hloc]; trivial
    cases rest with
    | nil =>
      simp only [hloc] at ht
      cases ht
      refine h.relocate_set (h.counted.scanEnd CpuThread.Committed.not_inSection hloc)
        ((h.threadsLocal i).move hin ?_)
      split <;> trivial
    | cons j rest =>
      simp only [hloc] at ht
      split at ht
      · rename_i hrunning
        cases ht
        have hji : j ≠ i := by
          rintro rfl
          rw [((h.threadsLocal j).of_inSection hin).2] at hrunning
          cases hrunning
        refine h.relocate (i := i) (h.counted.scanRunning CpuThread.Committed.not_inSection hnodup hloc hji)
          (fun k hk => ?_) ?_ ?_
        · rw [threads_set_of_ne hk]
          by_cases hkj : k = j
          · rw [hkj, threads_set_self]
          · rw [threads_set_of_ne hkj]
        · rw [threads_set_self]
          exact (h.threadsLocal i).move hin trivial
        · rw [threads_set_self]
      · rename_i hrunning
        cases ht
        refine h.relocate_set (h.counted.scanIdle CpuThread.Committed.not_inSection hloc fun hj => ?_)
          ((h.threadsLocal i).move hin trivial)
        exact hrunning ((h.threadsLocal j).running_of_committed hj)
  | exWait =>
    simp only [hloc] at ht
    split at ht
    · cases ht
    split at ht
    · cases ht
      exact h
    · rename_i hpending
      cases ht
      exact h.relocate_set (h.counted.waitOver CpuThread.Committed.not_inSection hloc hpending)
        ((h.threadsLocal i).move (by rw [hloc]; trivial) trivial)
  | exclusive => simp [hloc] at ht
  | exEnd =>
    simp only [hloc] at ht
    split at ht
    · cases ht
    · rename_i hlock
      cases ht
      refine h.relocate_set (h.counted.finish hloc (not_not.mp hlock)) ?_
      exact .inl ((h.threadsLocal i).of_inSection (by rw [hloc]; trivial))

theorem Inv.step {e : ℕ × ExclAct} (h : Inv cpus s) (hnodup : cpus.Nodup) (hunnested : Unnested s e)
    (ht : s.step cpus e = some t) : Inv cpus t := by
  obtain ⟨i, act⟩ := e
  unfold ExclState.step at ht
  split at ht
  · cases ht
  · rename_i hi
    rw [not_not] at hi
    cases act with
    | next => exact h.next hnodup hi ht
    | _ => exact h.call hi hunnested ht

end ExclState

/-- In every interleaving without nested activations, exclusive sections exclude guest code. -/
theorem exclusive_excludes (cpus : List ℕ) (hnodup : cpus.Nodup) (es : List (ℕ × ExclAct))
    (hunnested : Runs.Along (fun s e t => ExclState.step cpus s e = some t) Unnested .start es)
    (s : ExclState) (hs : Runs.Reaches (fun s e t => ExclState.step cpus s e = some t) .start es s) :
    s.Excludes :=
  (Runs.Along.reaches_invariant (I := ExclState.Inv cpus) (fun _ _ _ h hP ht => h.step hnodup hP ht)
    hunnested (.start cpus) hs).excludes

/-- Thread 0 runs guest code while thread 1 waits for it and enters its section after that. -/
theorem exclusive_excludes_waits :
    ∃ s, Runs.Reaches (fun s e t => ExclState.step [0, 1] s e = some t) .start
        [(0, .enter), (0, .cpuExecStart), (0, .next), (0, .next), (1, .startExclusive), (1, .next),
          (1, .next), (1, .next), (1, .next), (0, .cpuExecEnd), (0, .next), (0, .next), (0, .next),
          (1, .next)] s ∧
      (s.threads 1).loc = .exclusive ∧ s.Excludes := by
  obtain ⟨s, hs, hloc⟩ : ∃ s : ExclState,
      Runs.Reaches (fun s e t => ExclState.step [0, 1] s e = some t) .start
        [(0, .enter), (0, .cpuExecStart), (0, .next), (0, .next), (1, .startExclusive), (1, .next),
          (1, .next), (1, .next), (1, .next), (0, .cpuExecEnd), (0, .next), (0, .next), (0, .next),
          (1, .next)] s ∧ (s.threads 1).loc = .exclusive :=
    ⟨_, .cons rfl (.cons rfl (.cons rfl (.cons rfl (.cons rfl (.cons rfl (.cons rfl (.cons rfl
      (.cons rfl (.cons rfl (.cons rfl (.cons rfl (.cons rfl (.cons rfl (.nil _)))))))))))))), rfl⟩
  refine ⟨s, hs, hloc, exclusive_excludes [0, 1] (by decide) _ ?_ s hs⟩
  -- the only call of `cpu_xloop` is the first event
  refine ⟨fun _ => rfl, fun t _ => Runs.Along.of_forall fun u e he henter => ?_⟩
  simp only [mem_cons, not_mem_nil, or_false] at he
  obtain rfl | rfl | rfl | rfl | rfl | rfl | rfl | rfl | rfl | rfl | rfl | rfl | rfl := he <;> cases henter

/-- Guest code of thread 0 calls a host function that runs guest code in turn. After the inner activation has
ended thread 0 is not marked as running, but its outer activation goes on while thread 1 is in its section. -/
theorem exclusive_excludes_nested :
    ∃ s, Runs.Reaches (fun s e t => ExclState.step [0, 1] s e = some t) .start
        [(0, .enter), (0, .cpuExecStart), (0, .next), (0, .next), (0, .enter), (0, .cpuExecStart),
          (0, .next), (0, .next), (0, .cpuExecEnd), (0, .next), (0, .next), (0, .leave),
          (1, .startExclusive), (1, .next), (1, .next), (1, .next), (1, .next)] s ∧
      (s.threads 1).loc = .exclusive ∧ (s.threads 0).Executes ∧ ¬ s.Excludes := by
  obtain ⟨s, hs, hloc, hexecutes⟩ : ∃ s : ExclState,
      Runs.Reaches (fun s e t => ExclState.step [0, 1] s e = some t) .start
        [(0, .enter), (0, .cpuExecStart), (0, .next), (0, .next), (0, .enter), (0, .cpuExecStart),
          (0, .next), (0, .next), (0, .cpuExecEnd), (0, .next), (0, .next), (0, .leave),
          (1, .startExclusive), (1, .next), (1, .next), (1, .next), (1, .next)] s ∧
      (s.threads 1).loc = .exclusive ∧ (s.threads 0).Executes :=
    ⟨_, .cons rfl (.cons rfl (.cons rfl (.cons rfl (.cons rfl (.cons rfl (.cons rfl (.cons rfl
      (.cons rfl (.cons rfl (.cons rfl (.cons rfl (.cons rfl (.cons rfl (.cons rfl (.cons rfl
        (.cons rfl (.nil _))))))))))))))))), rfl, rfl, rfl⟩
  exact ⟨s, hs, hloc, hexecutes, fun h => h 1 0 hloc (by decide) hexecutes⟩

end Iqemu64
