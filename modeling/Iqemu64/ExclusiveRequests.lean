import Iqemu64.ExclusiveSections

/-!
# Exclusive requests and host functions

Guest code calls host functions through a trampoline that is itself translated code: the call happens between
`cpu_exec_start` and `cpu_exec_end` of the activation. A host function may call `cpu_xloop` in turn, whose first
call is `cpu_exec_start`. A thread that waits on a condition variable sleeps until it is woken.
-/

namespace Iqemu64
open Option Function ExclState

structure GrantState where
  excl : ExclState
  inHost : ℕ → Bool
  asleep : ℕ → Bool

inductive GrantAct where
  | enter | leave | cpuExecStart | cpuExecEnd | startExclusive | endExclusive
  | callHost | returnHost
  | next

namespace ExclLoc

def awaitsResume : ExclLoc → Bool
  | exLock => true
  | startIdle => true
  | _ => false

def awaitsCond : ExclLoc → Bool
  | exWait => true
  | _ => false

end ExclLoc

def ExclState.waits (s : ExclState) (i : ℕ) : Bool :=
  match (s.threads i).loc with
  | .exLock => s.pendingCpus ≠ 0
  | .startIdle => s.pendingCpus ≠ 0
  | .exWait => s.pendingCpus > 1
  | _ => false

namespace GrantState

def sleepers (s : GrantState) (i : ℕ) : ℕ → Bool :=
  if s.excl.waits i then update s.asleep i true
  else match (s.excl.threads i).loc with
    | .exEnd => fun j => s.asleep j && !(s.excl.threads j).loc.awaitsResume
    | .endLock =>
      if (s.excl.threads i).hasWaiter ∧ s.excl.pendingCpus - 1 = 1 then
        fun j => s.asleep j && !(s.excl.threads j).loc.awaitsCond
      else s.asleep
    | _ => s.asleep

def call (s : GrantState) (i : ℕ) (act : ExclAct) : Option GrantState :=
  (s.excl.call i act).map fun t => { s with excl := t }

def setInHost (s : GrantState) (i : ℕ) (b : Bool) : GrantState :=
  { s with inHost := update s.inHost i b }

def step (cpus : List ℕ) (s : GrantState) (e : ℕ × GrantAct) : Option GrantState :=
  let i := e.1
  let th := s.excl.threads i
  if i ∉ cpus then none
  else match e.2 with
    | .enter =>
      if th.frames ≠ [] ∧ s.inHost i = false then none
      else ((s.call i .enter).bind (·.call i .cpuExecStart)).map (·.setInHost i false)
    -- the outer activation is still in the host function
    | .leave => (s.call i .leave).map (·.setInHost i (th.frames.tail.head? = some true))
    | .cpuExecStart => s.call i .cpuExecStart
    | .cpuExecEnd => if s.inHost i then none else s.call i .cpuExecEnd
    | .startExclusive => s.call i .startExclusive
    | .endExclusive => s.call i .endExclusive
    | .callHost =>
      match th.loc, th.frames, s.inHost i with
      | .free, true :: _, false => some (s.setInHost i true)
      | _, _, _ => none
    | .returnHost => if s.inHost i then some (s.setInHost i false) else none
    | .next =>
      if s.asleep i then none
      else (s.excl.next cpus i).map fun t => { s with excl := t, asleep := s.sleepers i }

/-- No thread has been in `cpu_xloop` yet. -/
def start : GrantState where
  excl := .start
  inHost := fun _ => false
  asleep := fun _ => false

end GrantState

/-! ### What the calls do -/

namespace ExclState

variable {s t : ExclState} {i k : ℕ} {th : CpuThread}

theorem call_enter (h : s.call i .enter = some t) :
    (s.threads i).loc = .free ∧ t = s.set i { s.threads i with frames := false :: (s.threads i).frames } := by
  unfold call at h
  cases hloc : (s.threads i).loc with
  | free =>
    refine ⟨rfl, ?_⟩
    cases hframes : (s.threads i).frames with
    | nil => simpa [hloc, hframes] using h.symm
    | cons b fs => cases b <;> simp [hloc, hframes] at h ⊢; exact h.symm
  | _ => simp [hloc] at h

theorem call_leave (h : s.call i .leave = some t) :
    (s.threads i).loc = .free ∧ (s.threads i).frames.head? = some false ∧
      t = s.set i { s.threads i with frames := (s.threads i).frames.tail } := by
  unfold call at h
  cases hloc : (s.threads i).loc with
  | free =>
    refine ⟨rfl, ?_⟩
    cases hframes : (s.threads i).frames with
    | nil => simp [hloc, hframes] at h
    | cons b fs => cases b <;> simp [hloc, hframes] at h ⊢; exact h.symm
  | _ => simp [hloc] at h

theorem call_cpuExecStart (h : s.call i .cpuExecStart = some t) :
    (s.threads i).loc = .free ∧ (s.threads i).frames.head? = some false ∧
      t = s.set i { s.threads i with loc := .startSet } := by
  unfold call at h
  cases hloc : (s.threads i).loc with
  | free =>
    refine ⟨rfl, ?_⟩
    cases hframes : (s.threads i).frames with
    | nil => simp [hloc, hframes] at h
    | cons b fs => cases b <;> simp [hloc, hframes] at h ⊢; exact h.symm
  | _ => simp [hloc] at h

theorem call_cpuExecEnd (h : s.call i .cpuExecEnd = some t) :
    (s.threads i).Executes ∧ t = s.set i { s.threads i with loc := .endSet } := by
  unfold call at h
  unfold CpuThread.Executes
  cases hloc : (s.threads i).loc with
  | free =>
    cases hframes : (s.threads i).frames with
    | nil => simp [hloc, hframes] at h
    | cons b fs => cases b <;> simp [hloc, hframes] at h ⊢; exact h.symm
  | _ => simp [hloc] at h

theorem call_startExclusive (h : s.call i .startExclusive = some t) :
    (s.threads i).loc = .free ∧ (s.threads i).frames.head? ≠ some true ∧
      t = s.set i { s.threads i with loc := .exLock } := by
  unfold call at h
  cases hloc : (s.threads i).loc with
  | free =>
    refine ⟨rfl, ?_⟩
    cases hframes : (s.threads i).frames with
    | nil => simpa [hloc, hframes] using h.symm
    | cons b fs => cases b <;> simp [hloc, hframes] at h ⊢; exact h.symm
  | _ => simp [hloc] at h

theorem call_endExclusive (h : s.call i .endExclusive = some t) :
    (s.threads i).loc = .exclusive ∧ t = s.set i { s.threads i with loc := .exEnd } := by
  unfold call at h
  cases hloc : (s.threads i).loc with
  | exclusive => exact ⟨rfl, by simpa [hloc] using h.symm⟩
  | _ => simp [hloc] at h

theorem waits_set_of_ne (h : k ≠ i) : (s.set i th).waits k = s.waits k := by
  unfold waits
  rw [threads_set_of_ne h]
  rfl

theorem waits_of_awaitsResume (h : (s.threads i).loc.awaitsResume = true)
    (hpending : s.pendingCpus ≠ 0) : s.waits i = true := by
  unfold waits
  cases hloc : (s.threads i).loc with
  | exLock => simpa using hpending
  | startIdle => simpa using hpending
  | _ =>
    rw [hloc] at h
    cases h

theorem pending_of_waits (h : s.waits i = true) : s.pendingCpus ≠ 0 := by
  unfold waits at h
  split at h
  · simpa using h
  · simpa using h
  · have hpending : s.pendingCpus > 1 := by simpa using h
    omega
  · cases h

theorem awaits_of_waits (h : s.waits i = true) :
    (s.threads i).loc.awaitsResume = true ∨ (s.threads i).loc = .exWait ∧ s.pendingCpus > 1 := by
  unfold waits at h
  split at h
  · rename_i hloc
    exact .inl (by rw [hloc]; rfl)
  · rename_i hloc
    exact .inl (by rw [hloc]; rfl)
  · rename_i hloc
    exact .inr ⟨hloc, by simpa using h⟩
  · cases h

end ExclState

/-! ### The invariant -/

namespace CpuThread

def Exposed (th : CpuThread) : Prop := th.running = true ∧ (th.loc = .free ∨ th.loc = .endSet)

def Marks (th : CpuThread) : Prop :=
  match th.loc with
  | .free => th.running = true → th.frames.head? = some true
  | .startSet => True
  | .startRead => th.running = true
  | .startLock => th.running = true
  | .endSet => True
  | _ => th.running = false

def Answers (th : CpuThread) : Prop :=
  th.hasWaiter = true → th.running = true ∨ th.loc = .endRead ∨ th.loc = .endLock

variable {th : CpuThread}

theorem Exposed.not_inSection (h : th.Exposed) : ¬ th.loc.InSection := by
  obtain ⟨-, hloc | hloc⟩ := h
  · rw [hloc]
    exact id
  · rw [hloc]
    exact id

end CpuThread

namespace GrantState

structure Inv (cpus : List ℕ) (s : GrantState) : Prop where
  counted : s.excl.Counted CpuThread.Exposed cpus
  marks : ∀ i, (s.excl.threads i).Marks
  answers : ∀ i, (s.excl.threads i).Answers
  member : ∀ i, (s.excl.threads i).running = true → i ∈ cpus
  hosted : ∀ i, s.inHost i = true → (s.excl.threads i).Executes
  sleeping : ∀ i, s.asleep i = true → s.excl.waits i = true

variable {cpus : List ℕ} {s t : GrantState} {i j : ℕ}

theorem Inv.start (cpus : List ℕ) : Inv cpus GrantState.start := by
  refine ⟨.start _ cpus, fun _ h => ?_, fun _ h => ?_, fun _ h => ?_, fun _ h => ?_, fun _ h => ?_⟩ <;> cases h

variable {u : ExclState} {inHost : ℕ → Bool}

/-- One thread moves. The others may be waited for if they are marked. -/
theorem Inv.update (h : Inv cpus s) {asleep : ℕ → Bool}
    (hcounted : u.Counted CpuThread.Exposed cpus) (hi : i ∈ cpus)
    (hsame : ∀ k, k ≠ i → u.threads k = s.excl.threads k ∨ (s.excl.threads k).running = true ∧
      u.threads k = { s.excl.threads k with hasWaiter := true })
    (hmarks : (u.threads i).Marks) (hanswers : (u.threads i).Answers)
    (hother : ∀ k, k ≠ i → inHost k = s.inHost k) (hself : inHost i = true → (u.threads i).Executes)
    (hsleeping : ∀ k, asleep k = true → u.waits k = true) : Inv cpus ⟨u, inHost, asleep⟩ := by
  refine ⟨hcounted, fun k => ?_, fun k => ?_, fun k hk => ?_, fun k hk => ?_, hsleeping⟩
  · by_cases hki : k = i
    · exact hki ▸ hmarks
    obtain hk | ⟨hrunning, hk⟩ := hsame k hki
    · exact hk ▸ h.marks k
    · exact hk ▸ h.marks k
  · by_cases hki : k = i
    · exact hki ▸ hanswers
    obtain hk | ⟨hrunning, hk⟩ := hsame k hki
    · exact hk ▸ h.answers k
    · exact hk ▸ fun _ => .inl hrunning
  · by_cases hki : k = i
    · exact hki ▸ hi
    obtain hk' | ⟨hrunning, hk'⟩ := hsame k hki
    · exact h.member k (hk' ▸ hk)
    · exact h.member k hrunning
  · by_cases hki : k = i
    · subst hki
      exact hself hk
    have hexec := h.hosted k ((hother k hki).symm.trans hk)
    obtain hk' | ⟨hrunning, hk'⟩ := hsame k hki
    · exact hk' ▸ hexec
    · exact hk' ▸ hexec

theorem Inv.awake (h : Inv cpus s) (hwaits : s.excl.waits i = false) : s.asleep i = false := by
  by_contra hasleep
  rw [Bool.not_eq_false] at hasleep
  exact absurd ((h.sleeping i hasleep).symm.trans hwaits) (by decide)

theorem Inv.set (h : Inv cpus s) (hi : i ∈ cpus) {th : CpuThread}
    (hcounted : (s.excl.set i th).Counted CpuThread.Exposed cpus) (hmarks : th.Marks) (hanswers : th.Answers)
    (hother : ∀ k, k ≠ i → inHost k = s.inHost k) (hself : inHost i = true → th.Executes)
    (hawake : s.asleep i = false) : Inv cpus ⟨s.excl.set i th, inHost, s.asleep⟩ := by
  have hth : (s.excl.set i th).threads i = th := threads_set_self
  refine h.update hcounted hi (fun k hk => .inl (threads_set_of_ne hk)) (hth.symm ▸ hmarks)
    (hth.symm ▸ hanswers) hother (fun hk => hth.symm ▸ hself hk) fun k hk => ?_
  by_cases hki : k = i
  · subst hki
    exact absurd (hk.symm.trans hawake) (by decide)
  · rw [waits_set_of_ne hki]
    exact h.sleeping k hk

/-- Outside of `cpu_exec_start` a thread that is waited for is marked or in `cpu_exec_end`. -/
theorem Inv.not_waited (h : Inv cpus s) (hloc : (s.excl.threads i).loc = .free)
    (hhead : (s.excl.threads i).frames.head? ≠ some true) :
    (s.excl.threads i).running = false ∧ (s.excl.threads i).hasWaiter = false := by
  have hmarks := h.marks i
  have hanswers := h.answers i
  rw [CpuThread.Marks, hloc] at hmarks
  rw [CpuThread.Answers, hloc] at hanswers
  have hrunning : (s.excl.threads i).running = false := Bool.eq_false_iff.mpr fun hr => hhead (hmarks hr)
  refine ⟨hrunning, Bool.eq_false_iff.mpr fun hw => ?_⟩
  simpa [hrunning] using hanswers hw

theorem waits_of_free (hloc : (s.excl.threads i).loc = .free) : s.excl.waits i = false := by
  rw [waits, hloc]

theorem Inv.not_inHost (h : Inv cpus s) (hexec : ¬ (s.excl.threads i).Executes) : s.inHost i = false :=
  Bool.eq_false_iff.mpr fun hhost => hexec (h.hosted i hhost)

/-- A thread outside of the section moves, and does not get into guest code. -/
theorem Inv.quiet (h : Inv cpus s) (hi : i ∈ cpus) {th : CpuThread}
    (hout : ¬ (s.excl.threads i).loc.InSection) (hout' : ¬ th.loc.InSection)
    (hw : th.hasWaiter = (s.excl.threads i).hasWaiter) (hmarks : th.Marks) (hanswers : th.Answers)
    (hexposed : th.Exposed → s.excl.pendingCpus = 0 ∨ (s.excl.threads i).hasWaiter = true ∨
      (s.excl.threads i).Exposed)
    (hother : ∀ k, k ≠ i → inHost k = s.inHost k) (hself : inHost i = true → th.Executes)
    (hawake : s.asleep i = false) : Inv cpus ⟨s.excl.set i th, inHost, s.asleep⟩ :=
  h.set hi (h.counted.quiet hw hout hout' hexposed) hmarks hanswers hother hself hawake

variable {l : ExclLoc}

theorem not_inSection_of_free (h : l = .free) : ¬ l.InSection := by
  rw [h]
  exact id

theorem update_other (f : ℕ → Bool) (b : Bool) (k : ℕ) (h : k ≠ i) : update f i b k = f k :=
  update_of_ne h b f

theorem Inv.enter (h : Inv cpus s) (hi : i ∈ cpus) {v : ExclState} (hu : s.excl.call i .enter = some u)
    (hv : u.call i .cpuExecStart = some v) : Inv cpus ⟨v, Function.update s.inHost i false, s.asleep⟩ := by
  obtain ⟨hloc, rfl⟩ := call_enter hu
  obtain ⟨hloc', -, rfl⟩ := call_cpuExecStart hv
  have hout := not_inSection_of_free hloc
  let th : CpuThread := { s.excl.threads i with frames := false :: (s.excl.threads i).frames }
  have hself : (s.excl.set i th).threads i = th := threads_set_self
  -- the new activation is not seen before its `cpu_exec_start`
  have hentered : (s.excl.set i th).Counted CpuThread.Exposed cpus :=
    h.counted.quiet rfl hout hout fun hc => .inr (.inr hc)
  refine h.update (hentered.quiet (i := i) rfl ?_ id fun hc => ?_) hi (fun k hk => .inl ?_) ?_ ?_
    (update_other _ _) (fun hk => ?_) fun k hk => ?_
  · rw [hself]
    exact hout
  · rcases hc.2 with hc | hc <;> cases hc
  · rw [threads_set_of_ne hk, threads_set_of_ne hk]
  · rw [threads_set_self]
    trivial
  · rw [threads_set_self, hself]
    intro hw
    refine .inl ((h.answers i hw).resolve_right fun hend => ?_)
    rw [hloc] at hend
    rcases hend with hend | hend <;> cases hend
  · rw [update_self] at hk
    cases hk
  · by_cases hki : k = i
    · subst hki
      exact absurd (hk.symm.trans (h.awake (waits_of_free hloc))) (by decide)
    · rw [waits_set_of_ne hki, waits_set_of_ne hki]
      exact h.sleeping k hk

theorem Inv.leave (h : Inv cpus s) (hi : i ∈ cpus) (hu : s.excl.call i .leave = some u) :
    Inv cpus ⟨u, Function.update s.inHost i ((s.excl.threads i).frames.tail.head? = some true), s.asleep⟩ := by
  obtain ⟨hloc, hhead, rfl⟩ := call_leave hu
  have hout := not_inSection_of_free hloc
  obtain ⟨hrunning, hwaiter⟩ := h.not_waited hloc (by rw [hhead]; simp)
  refine h.quiet hi hout hout rfl ?_ (fun hw => absurd (hwaiter.symm.trans hw) (by decide))
    (fun hc => absurd (hrunning.symm.trans hc.1) (by decide)) (update_other _ _) (fun hk => ?_)
    (h.awake (waits_of_free hloc))
  · rw [CpuThread.Marks, hloc]
    exact fun hr => absurd (hrunning.symm.trans hr) (by decide)
  · rw [update_self, decide_eq_true_iff] at hk
    exact ⟨hloc, hk⟩

theorem Inv.cpuExecStart (h : Inv cpus s) (hi : i ∈ cpus)
    (hu : s.excl.call i .cpuExecStart = some u) : Inv cpus { s with excl := u } := by
  obtain ⟨hloc, hhead, rfl⟩ := call_cpuExecStart hu
  have hne : (s.excl.threads i).frames.head? ≠ some true := by
    rw [hhead]
    simp
  obtain ⟨-, hwaiter⟩ := h.not_waited hloc hne
  have hhost := h.not_inHost fun hexec => hne hexec.2
  refine h.quiet hi (not_inSection_of_free hloc) id rfl trivial
    (fun hw => absurd (hwaiter.symm.trans hw) (by decide)) (fun hc => ?_) (fun _ _ => rfl)
    (fun hk => absurd (hhost.symm.trans hk) (by decide)) (h.awake (waits_of_free hloc))
  rcases hc.2 with hc | hc <;> cases hc

theorem Inv.cpuExecEnd (h : Inv cpus s) (hi : i ∈ cpus) (hhost : s.inHost i = false)
    (hu : s.excl.call i .cpuExecEnd = some u) : Inv cpus { s with excl := u } := by
  obtain ⟨⟨hloc, hhead⟩, rfl⟩ := call_cpuExecEnd hu
  refine h.quiet hi (not_inSection_of_free hloc) id rfl trivial (fun hw => ?_)
    (fun hc => .inr (.inr ⟨hc.1, .inl hloc⟩)) (fun _ _ => rfl)
    (fun hk => absurd (hhost.symm.trans hk) (by decide)) (h.awake (waits_of_free hloc))
  refine .inl ((h.answers i hw).resolve_right fun hend => ?_)
  rw [hloc] at hend
  rcases hend with hend | hend <;> cases hend

theorem Inv.startExclusive (h : Inv cpus s) (hi : i ∈ cpus)
    (hu : s.excl.call i .startExclusive = some u) : Inv cpus { s with excl := u } := by
  obtain ⟨hloc, hhead, rfl⟩ := call_startExclusive hu
  obtain ⟨hrunning, hwaiter⟩ := h.not_waited hloc hhead
  have hhost := h.not_inHost fun hexec => hhead hexec.2
  exact h.quiet hi (not_inSection_of_free hloc) id rfl hrunning
    (fun hw => absurd (hwaiter.symm.trans hw) (by decide))
    (fun hc => absurd (hrunning.symm.trans hc.1) (by decide)) (fun _ _ => rfl)
    (fun hk => absurd (hhost.symm.trans hk) (by decide)) (h.awake (waits_of_free hloc))

theorem Inv.endExclusive (h : Inv cpus s) (hi : i ∈ cpus)
    (hu : s.excl.call i .endExclusive = some u) : Inv cpus { s with excl := u } := by
  obtain ⟨hloc, rfl⟩ := call_endExclusive hu
  have hmarks := h.marks i
  have hanswers := h.answers i
  rw [CpuThread.Marks, hloc] at hmarks
  have hhost := h.not_inHost fun hexec => by rw [hexec.1] at hloc; cases hloc
  refine h.set hi (h.counted.endExclusive CpuThread.Exposed.not_inSection hloc) hmarks (fun hw => ?_)
    (fun _ _ => rfl) (fun hk => absurd (hhost.symm.trans hk) (by decide)) (h.awake ?_)
  · simpa [hmarks, hloc] using hanswers hw
  · rw [waits, hloc]

theorem Inv.setInHost (h : Inv cpus s) {b : Bool} (hb : b = true → (s.excl.threads i).Executes) :
    Inv cpus (s.setInHost i b) := by
  refine ⟨h.counted, h.marks, h.answers, h.member, fun k hk => ?_, h.sleeping⟩
  change Function.update s.inHost i b k = true at hk
  by_cases hki : k = i
  · subst hki
    rw [update_self] at hk
    exact hb hk
  · rw [update_of_ne hki] at hk
    exact h.hosted k hk

/-! ### Steps of the functions -/

theorem sleepers_of_quiet (hwaits : s.excl.waits i = false) (hend : (s.excl.threads i).loc ≠ .exEnd)
    (hlock : (s.excl.threads i).loc ≠ .endLock) : s.sleepers i = s.asleep := by
  unfold sleepers
  rw [hwaits, if_neg Bool.false_ne_true]
  split
  · exact absurd ‹_› hend
  · exact absurd ‹_› hlock
  · rfl

theorem Inv.sleep (h : Inv cpus s) (hwaits : s.excl.waits i = true) :
    Inv cpus { s with asleep := s.sleepers i } := by
  refine ⟨h.counted, h.marks, h.answers, h.member, h.hosted, fun k hk => ?_⟩
  change s.sleepers i k = true at hk
  rw [sleepers, if_pos hwaits] at hk
  by_cases hki : k = i
  · exact hki ▸ hwaits
  · rw [update_of_ne hki] at hk
    exact h.sleeping k hk

/-- Guest code starts when there is no section, or when the thread is waited for. -/
theorem Inv.started (h : Inv cpus s) (hi : i ∈ cpus) (hloc : (s.excl.threads i).loc ≠ .free)
    (hout : ¬ (s.excl.threads i).loc.InSection) {running : Bool} (hrunning : running = true)
    (hfree : s.excl.pendingCpus = 0 ∨ (s.excl.threads i).hasWaiter = true) (hawake : s.asleep i = false) :
    Inv cpus { s with excl := s.excl.started i running } := by
  have hhost := h.not_inHost fun hexec => hloc hexec.1
  refine h.quiet hi hout id rfl (fun _ => rfl) (fun _ => .inl hrunning)
    (fun _ => hfree.elim .inl fun hw => .inr (.inl hw)) (fun _ _ => rfl)
    (fun hk => absurd (hhost.symm.trans hk) (by decide)) hawake

theorem Inv.ended (h : Inv cpus s) (hi : i ∈ cpus) (hloc : (s.excl.threads i).loc ≠ .free)
    (hout : ¬ (s.excl.threads i).loc.InSection) (hrunning : (s.excl.threads i).running = false)
    (hwaiter : (s.excl.threads i).hasWaiter = false) (hawake : s.asleep i = false) :
    Inv cpus { s with excl := s.excl.ended i } := by
  have hhost := h.not_inHost fun hexec => hloc hexec.1
  exact h.quiet hi hout id rfl (fun hr => absurd (hrunning.symm.trans hr) (by decide))
    (fun hw => absurd (hwaiter.symm.trans hw) (by decide))
    (fun hc => absurd (hrunning.symm.trans hc.1) (by decide)) (fun _ _ => rfl)
    (fun hk => absurd (hhost.symm.trans hk) (by decide)) hawake

/-- A thread goes on in `cpu_exec_start` or `cpu_exec_end`. -/
theorem Inv.goOn (h : Inv cpus s) (hi : i ∈ cpus) {running : Bool}
    (hloc : (s.excl.threads i).loc ≠ .free) (hout : ¬ (s.excl.threads i).loc.InSection)
    (hout' : ¬ l.InSection) (hl : l ≠ .free ∧ l ≠ .endSet)
    (hmarks : ({ s.excl.threads i with loc := l, running := running } : CpuThread).Marks)
    (hanswers : ({ s.excl.threads i with loc := l, running := running } : CpuThread).Answers)
    (hawake : s.asleep i = false) :
    Inv cpus { s with excl := s.excl.set i { s.excl.threads i with loc := l, running := running } } := by
  have hhost := h.not_inHost fun hexec => hloc hexec.1
  exact h.quiet hi hout hout' rfl hmarks hanswers (fun hc => (hc.2.elim hl.1 hl.2).elim) (fun _ _ => rfl)
    (fun hk => absurd (hhost.symm.trans hk) (by decide)) hawake

/-- The thread in the section, or one that gets into it, moves. -/
theorem Inv.relocate (h : Inv cpus s) (hi : i ∈ cpus) {pendingCpus : ℕ} {lock : Option ℕ}
    (hcounted : ExclState.Counted CpuThread.Exposed cpus { s.excl.set i { s.excl.threads i with loc := l } with
      pendingCpus := pendingCpus, lock := lock })
    (hloc : (s.excl.threads i).loc ≠ .free)
    (hend : (s.excl.threads i).loc ≠ .endRead ∧ (s.excl.threads i).loc ≠ .endLock)
    (hrunning : (s.excl.threads i).running = false)
    (hmarks : ({ s.excl.threads i with loc := l } : CpuThread).Marks) {asleep : ℕ → Bool}
    (hsleeping : ∀ k, asleep k = true → ({ s.excl.set i { s.excl.threads i with loc := l } with
      pendingCpus := pendingCpus, lock := lock } : ExclState).waits k = true) :
    Inv cpus ⟨{ s.excl.set i { s.excl.threads i with loc := l } with
      pendingCpus := pendingCpus, lock := lock }, s.inHost, asleep⟩ := by
  have hhost := h.not_inHost fun hexec => hloc hexec.1
  have hself : (s.excl.set i { s.excl.threads i with loc := l }).threads i =
      { s.excl.threads i with loc := l } := threads_set_self
  refine h.update hcounted hi (fun k hk => .inl ?_) (hself.symm ▸ hmarks) (hself.symm ▸ fun hw => ?_)
    (fun _ _ => rfl) (fun hk => absurd (hhost.symm.trans hk) (by decide)) hsleeping
  · exact threads_set_of_ne hk
  · obtain hr | hr | hr := h.answers i hw
    · exact absurd (hrunning.symm.trans hr) (by decide)
    · exact absurd hr hend.1
    · exact absurd hr hend.2

/-- Only the thread in the section can sleep on `exclusive_cond`. -/
theorem Inv.awaitsResume (h : Inv cpus s) (hin : (s.excl.threads i).loc.InSection) {k : ℕ} (hki : k ≠ i)
    (hk : s.asleep k = true) : (s.excl.threads k).loc.awaitsResume = true := by
  refine (awaits_of_waits (h.sleeping k hk)).resolve_right fun hwait => hki ?_
  refine h.counted.unique ?_ hin
  rw [hwait.1]
  trivial

/-- The sleepers sleep on where the thread in the section goes on. -/
theorem Inv.sleeping_section (h : Inv cpus s) (hin : (s.excl.threads i).loc.InSection)
    (hawake : s.asleep i = false)
    (hsame : ∀ k, k ≠ i → (u.threads k).loc = (s.excl.threads k).loc) (hpending : u.pendingCpus ≠ 0) {k : ℕ}
    (hk : s.asleep k = true) : u.waits k = true := by
  have hki : k ≠ i := by
    rintro rfl
    exact absurd (hk.symm.trans hawake) (by decide)
  refine waits_of_awaitsResume ?_ hpending
  rw [hsame k hki]
  exact h.awaitsResume hin hki hk

/-- The thread that is waited for last wakes the thread in the section. -/
theorem Inv.release (h : Inv cpus s) (hnodup : cpus.Nodup) (hi : i ∈ cpus)
    (hloc : (s.excl.threads i).loc = .endLock) (hlock : s.excl.lock = none) (hawake : s.asleep i = false)
    (hwaiter : (s.excl.threads i).hasWaiter = true) :
    Inv cpus ⟨{ s.excl.set i { s.excl.threads i with
        loc := .free, frames := false :: (s.excl.threads i).frames.tail, hasWaiter := false } with
      pendingCpus := s.excl.pendingCpus - 1 }, s.inHost, s.sleepers i⟩ := by
  have hrunning : (s.excl.threads i).running = false := by
    have hmarks := h.marks i
    rwa [CpuThread.Marks, hloc] at hmarks
  have hhost := h.not_inHost fun hexec => by rw [hexec.1] at hloc; cases hloc
  let th : CpuThread := { s.excl.threads i with
    loc := .free, frames := false :: (s.excl.threads i).frames.tail, hasWaiter := false }
  have hself : (s.excl.set i th).threads i = th := threads_set_self
  have hcounted : ExclState.Counted CpuThread.Exposed cpus
      { s.excl.set i th with pendingCpus := s.excl.pendingCpus - 1 } :=
    h.counted.release hnodup hi hloc hlock hwaiter id rfl
      fun hc => absurd (hrunning.symm.trans hc.1) (by decide)
  refine h.update hcounted hi (fun k hk => .inl (threads_set_of_ne hk)) ?_ ?_ (fun _ _ => rfl)
    (fun hk => absurd (hhost.symm.trans hk) (by decide)) fun k hk => ?_
  · show CpuThread.Marks ((s.excl.set i th).threads i)
    rw [hself]
    exact fun hr => absurd (hrunning.symm.trans hr) (by decide)
  · show CpuThread.Answers ((s.excl.set i th).threads i)
    rw [hself]
    exact fun hw => (nomatch hw)
  · have hwaits : s.excl.waits i = false := by rw [waits, hloc]
    rw [sleepers, hwaits, if_neg Bool.false_ne_true, hloc] at hk
    have hasleep : s.asleep k = true := by
      simp only [hwaiter, true_and] at hk
      split at hk
      · exact (Bool.and_eq_true _ _ ▸ hk).1
      · exact hk
    have hki : k ≠ i := by
      rintro rfl
      exact absurd (hasleep.symm.trans hawake) (by decide)
    obtain hresume | ⟨hwait, hpending⟩ := awaits_of_waits (h.sleeping k hasleep)
    · obtain ⟨m, hm⟩ := h.counted.pending.mp (pending_of_waits (h.sleeping k hasleep))
      have hmi : m ≠ i := by
        rintro rfl
        rw [hloc] at hm
        exact hm
      refine waits_of_awaitsResume ?_ (hcounted.pending.mpr ⟨m, ?_⟩)
      · show ((s.excl.set i th).threads k).loc.awaitsResume = true
        rw [threads_set_of_ne hki]
        exact hresume
      · show ((s.excl.set i th).threads m).loc.InSection
        rw [threads_set_of_ne hmi]
        exact hm
    · have hne : s.excl.pendingCpus - 1 ≠ 1 := by
        intro hone
        simp [hwaiter, hone, hwait, ExclLoc.awaitsCond] at hk
      have hloc' : ((s.excl.set i th).threads k).loc = .exWait := by
        rw [threads_set_of_ne hki]
        exact hwait
      show waits { s.excl.set i th with pendingCpus := s.excl.pendingCpus - 1 } k = true
      simp only [waits, hloc']
      exact decide_eq_true (by omega)

theorem Inv.next (h : Inv cpus s) (hnodup : cpus.Nodup) (hi : i ∈ cpus) (hawake : s.asleep i = false) (hu : s.excl.next cpus i = some u) :
    Inv cpus { s with excl := u, asleep := s.sleepers i } := by
  have hmarks := h.marks i
  unfold CpuThread.Marks at hmarks
  have hanswers := h.answers i
  unfold CpuThread.Answers at hanswers
  unfold ExclState.next at hu
  simp only at hu
  cases hloc : (s.excl.threads i).loc with
  | free => simp [hloc] at hu
  | startSet =>
    simp only [hloc] at hu
    cases hu
    rw [sleepers_of_quiet (by rw [waits, hloc]) (by simp [hloc]) (by simp [hloc])]
    exact h.goOn hi (by simp [hloc]) (by rw [hloc]; exact id) id (by simp) rfl (fun _ => .inl rfl) hawake
  | startRead =>
    simp only [hloc] at hu hmarks
    rw [sleepers_of_quiet (by rw [waits, hloc]) (by simp [hloc]) (by simp [hloc])]
    split at hu
    · rename_i hzero
      cases hu
      exact h.started hi (by simp [hloc]) (by rw [hloc]; exact id) hmarks (.inl hzero) hawake
    · cases hu
      exact h.goOn hi (by simp [hloc]) (by rw [hloc]; exact id) id (by simp) hmarks (fun _ => .inl hmarks) hawake
  | startLock =>
    simp only [hloc] at hu hmarks
    rw [sleepers_of_quiet (by rw [waits, hloc]) (by simp [hloc]) (by simp [hloc])]
    split at hu
    · cases hu
    split at hu
    · rename_i hwaiter
      cases hu
      exact h.started hi (by simp [hloc]) (by rw [hloc]; exact id) hmarks (.inr hwaiter) hawake
    rename_i hwaiter
    split at hu
    · rename_i hzero
      cases hu
      exact h.started hi (by simp [hloc]) (by rw [hloc]; exact id) rfl (.inl hzero) hawake
    · cases hu
      exact h.goOn hi (by simp [hloc]) (by rw [hloc]; exact id) id (by simp) rfl
        (fun hw => absurd hw hwaiter) hawake
  | startIdle =>
    simp only [hloc] at hu hmarks
    split at hu
    · cases hu
    split at hu
    · rename_i hzero
      cases hu
      rw [sleepers_of_quiet (by simp [waits, hloc, hzero]) (by simp [hloc]) (by simp [hloc])]
      exact h.started hi (by simp [hloc]) (by rw [hloc]; exact id) rfl (.inl hzero) hawake
    · rename_i hzero
      cases hu
      exact h.sleep (by simpa [waits, hloc] using hzero)
  | endSet =>
    simp only [hloc] at hu
    cases hu
    rw [sleepers_of_quiet (by rw [waits, hloc]) (by simp [hloc]) (by simp [hloc])]
    exact h.goOn hi (by simp [hloc]) (by rw [hloc]; exact id) id (by simp) rfl (fun _ => .inr (.inl rfl)) hawake
  | endRead =>
    simp only [hloc] at hu hmarks
    rw [sleepers_of_quiet (by rw [waits, hloc]) (by simp [hloc]) (by simp [hloc])]
    split at hu
    · rename_i hzero
      cases hu
      refine h.ended hi (by simp [hloc]) (by rw [hloc]; exact id) hmarks (Bool.eq_false_iff.mpr fun hw => ?_) hawake
      exact (h.counted.waiter hw).2 hzero
    · cases hu
      exact h.goOn hi (by simp [hloc]) (by rw [hloc]; exact id) id (by simp) hmarks (fun _ => .inr (.inr rfl)) hawake
  | endLock =>
    simp only [hloc] at hu hmarks
    split at hu
    · cases hu
    rename_i hlock
    split at hu
    · rename_i hwaiter
      cases hu
      exact h.release hnodup hi hloc (not_not.mp hlock) hawake hwaiter
    · rename_i hwaiter
      cases hu
      have hsame : s.sleepers i = s.asleep := by simp [sleepers, waits, hloc, hwaiter]
      rw [hsame]
      exact h.ended hi (by simp [hloc]) (by rw [hloc]; exact id) hmarks (Bool.eq_false_iff.mpr hwaiter) hawake
  | exLock =>
    simp only [hloc] at hu hmarks
    split at hu
    · cases hu
    split at hu
    · rename_i hpending
      cases hu
      exact h.sleep (by simpa [waits, hloc] using hpending)
    · rename_i hpending
      rw [not_not] at hpending
      cases hu
      rw [sleepers_of_quiet (by simp [waits, hloc, hpending]) (by simp [hloc]) (by simp [hloc])]
      refine h.relocate (l := .exScan cpus 0) hi ?_ (by simp [hloc]) (by simp [hloc]) hmarks hmarks fun k hk => ?_
      · exact h.counted.acquire CpuThread.Exposed.not_inSection hnodup hpending fun j hj => h.member j hj.1
      · exact absurd hpending (pending_of_waits (h.sleeping k hk))
  | exScan rest n =>
    have hin : (s.excl.threads i).loc.InSection := by rw [hloc]; trivial
    have hpending : s.excl.pendingCpus ≠ 0 := h.counted.pending.mpr ⟨i, hin⟩
    have hhost := h.not_inHost fun hexec => by rw [hexec.1] at hloc; cases hloc
    simp only [hloc] at hmarks
    rw [sleepers_of_quiet (by rw [waits, hloc]) (by simp [hloc]) (by simp [hloc])]
    cases rest with
    | nil =>
      simp only [hloc] at hu
      cases hu
      refine h.relocate hi (h.counted.scanEnd CpuThread.Exposed.not_inSection hloc) (by simp [hloc])
        (by simp [hloc]) hmarks ?_ fun k hk => h.sleeping_section hin hawake (fun k hk => ?_) (Nat.succ_ne_zero n) hk
      · split <;> exact hmarks
      · exact congrArg CpuThread.loc (threads_set_of_ne hk)
    | cons j rest =>
      simp only [hloc] at hu
      split at hu
      · rename_i hrunning
        cases hu
        have hji : j ≠ i := by
          rintro rfl
          exact absurd (hmarks.symm.trans hrunning) (by decide)
        refine h.update (h.counted.scanRunning CpuThread.Exposed.not_inSection hnodup hloc hji) hi
          (fun k hk => ?_) ?_ ?_ (fun _ _ => rfl) (fun hk => absurd (hhost.symm.trans hk) (by decide))
          fun k hk => h.sleeping_section hin hawake (fun k hk => ?_) ?_ hk
        · rw [threads_set_of_ne hk]
          by_cases hkj : k = j
          · rw [hkj, threads_set_self]
            exact .inr ⟨hrunning, rfl⟩
          · exact .inl (threads_set_of_ne hkj)
        · rw [threads_set_self]
          exact hmarks
        · rw [threads_set_self]
          exact fun hw => absurd (hanswers hw) (by simp [hmarks, hloc])
        · rw [threads_set_of_ne hk]
          by_cases hkj : k = j
          · rw [hkj, threads_set_self]
          · rw [threads_set_of_ne hkj]
        · exact hpending
      · rename_i hrunning
        cases hu
        refine h.relocate hi (h.counted.scanIdle CpuThread.Exposed.not_inSection hloc fun hj => hrunning hj.1)
          (by simp [hloc]) (by simp [hloc]) hmarks hmarks
          fun k hk => h.sleeping_section hin hawake (fun k hk => ?_) ?_ hk
        · exact congrArg CpuThread.loc (threads_set_of_ne hk)
        · exact hpending
  | exWait =>
    simp only [hloc] at hu hmarks
    split at hu
    · cases hu
    split at hu
    · rename_i hpending
      cases hu
      exact h.sleep (by simpa [waits, hloc] using hpending)
    · rename_i hpending
      cases hu
      have hin : (s.excl.threads i).loc.InSection := by rw [hloc]; trivial
      rw [sleepers_of_quiet (by simpa [waits, hloc] using hpending) (by simp [hloc]) (by simp [hloc])]
      refine h.relocate hi (h.counted.waitOver CpuThread.Exposed.not_inSection hloc hpending) (by simp [hloc])
        (by simp [hloc]) hmarks hmarks
        fun k hk => h.sleeping_section hin hawake (fun k hk => ?_) ?_ hk
      · exact congrArg CpuThread.loc (threads_set_of_ne hk)
      · exact h.counted.pending.mpr ⟨i, hin⟩
  | exclusive => simp [hloc] at hu
  | exEnd =>
    simp only [hloc] at hu hmarks
    split at hu
    · cases hu
    · rename_i hlock
      cases hu
      refine h.relocate hi (h.counted.finish hloc (not_not.mp hlock)) (by simp [hloc]) (by simp [hloc]) hmarks
        (fun hr => absurd (hmarks.symm.trans hr) (by decide)) fun k hk => ?_
      -- the broadcast wakes all that sleep
      have hwaits : s.excl.waits i = false := by rw [waits, hloc]
      rw [sleepers, hwaits, if_neg Bool.false_ne_true, hloc, Bool.and_eq_true] at hk
      have hki : k ≠ i := by
        rintro rfl
        exact absurd (hk.1.symm.trans hawake) (by decide)
      rw [h.awaitsResume (by rw [hloc]; trivial) hki hk.1] at hk
      exact absurd hk.2 (by decide)

theorem Inv.step (h : Inv cpus s) (hnodup : cpus.Nodup) {e : ℕ × GrantAct} (ht : s.step cpus e = some t) :
    Inv cpus t := by
  obtain ⟨i, act⟩ := e
  unfold GrantState.step at ht
  simp only at ht
  split at ht
  · cases ht
  rename_i hi
  rw [not_not] at hi
  cases act with
  | enter =>
    simp only at ht
    split at ht
    · cases ht
    simp only [GrantState.call, map_eq_some_iff, bind_eq_some_iff] at ht
    obtain ⟨w, ⟨u', ⟨u, hu, rfl⟩, ⟨v, hv, rfl⟩⟩, rfl⟩ := ht
    exact h.enter hi hu hv
  | leave =>
    simp only [GrantState.call, map_eq_some_iff] at ht
    obtain ⟨w, ⟨u, hu, rfl⟩, rfl⟩ := ht
    exact h.leave hi hu
  | cpuExecStart =>
    simp only [GrantState.call, map_eq_some_iff] at ht
    obtain ⟨u, hu, rfl⟩ := ht
    exact h.cpuExecStart hi hu
  | cpuExecEnd =>
    simp only at ht
    split at ht
    · cases ht
    rename_i hhost
    simp only [GrantState.call, map_eq_some_iff] at ht
    obtain ⟨u, hu, rfl⟩ := ht
    exact h.cpuExecEnd hi (Bool.eq_false_iff.mpr hhost) hu
  | startExclusive =>
    simp only [GrantState.call, map_eq_some_iff] at ht
    obtain ⟨u, hu, rfl⟩ := ht
    exact h.startExclusive hi hu
  | endExclusive =>
    simp only [GrantState.call, map_eq_some_iff] at ht
    obtain ⟨u, hu, rfl⟩ := ht
    exact h.endExclusive hi hu
  | callHost =>
    simp only at ht
    split at ht
    · rename_i hloc hframes _
      cases ht
      exact h.setInHost fun _ => ⟨hloc, by rw [hframes]; rfl⟩
    · cases ht
  | returnHost =>
    simp only at ht
    split at ht
    · cases ht
      exact h.setInHost fun hb => (nomatch hb)
    · cases ht
  | next =>
    simp only at ht
    split at ht
    · cases ht
    rename_i hawake
    obtain ⟨u, hu, rfl⟩ := map_eq_some_iff.mp ht
    exact h.next hnodup hi (Bool.eq_false_iff.mpr hawake) hu

/-- In every interleaving, with host functions that run guest code in turn: sections exclude each other, the
count that the thread in the section waits for is that of the threads it still waits for, and no wake-up is
lost, since a thread sleeps only while the condition of its loop holds. -/
theorem sections_run (cpus : List ℕ) (hnodup : cpus.Nodup) (es : List (ℕ × GrantAct)) (s : GrantState)
    (hs : Runs.Reaches (fun s e t => step cpus s e = some t) start es s) :
    (∀ i j, (s.excl.threads i).loc.InSection → (s.excl.threads j).loc.InSection → i = j) ∧
      (s.excl.pendingCpus ≠ 0 ↔ ∃ i, (s.excl.threads i).loc.InSection) ∧
      (∀ i, (s.excl.threads i).loc = .exWait → s.excl.pendingCpus = s.excl.waiters cpus + 1) ∧
      (∀ i, (s.excl.threads i).loc = .exclusive → s.excl.waiters cpus = 0) ∧
      ∀ i, s.asleep i = true → s.excl.waits i = true := by
  have h : Inv cpus s := hs.invariant (fun _ _ _ h ht => h.step hnodup ht) (.start cpus)
  refine ⟨fun i j => h.counted.unique, h.counted.pending, fun i hloc => ?_, fun i hloc => ?_, h.sleeping⟩
  · have hstage := h.counted.stage i
    rw [hloc] at hstage
    exact hstage
  · have hstage := h.counted.stage i
    rw [hloc] at hstage
    exact hstage

/-- Thread 1 sleeps until the section of thread 0 is over. -/
theorem sections_run_second : ∃ es s, Runs.Reaches (fun s e t => step [0, 1] s e = some t) start es s ∧
    s.asleep 1 = true ∧ s.excl.waits 1 = true := by
  obtain ⟨s, hs, hasleep⟩ : ∃ s, Runs.Reaches (fun s e t => step [0, 1] s e = some t) start
      [(0, .startExclusive), (0, .next), (0, .next), (0, .next), (0, .next), (1, .startExclusive), (1, .next)] s ∧
      s.asleep 1 = true :=
    ⟨_, .cons rfl (.cons rfl (.cons rfl (.cons rfl (.cons rfl (.cons rfl (.cons rfl (.nil _))))))), rfl⟩
  exact ⟨_, s, hs, hasleep, (sections_run [0, 1] (by decide) _ s hs).2.2.2.2 1 hasleep⟩

end GrantState

end Iqemu64
