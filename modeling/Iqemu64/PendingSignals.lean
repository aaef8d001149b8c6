import Iqemu64.Runs
import Iqemu64.TaskSignals

/-!
# Pending signals are not forgotten

`Step` takes a thread from one host signal, mask change or turn of `process_pending_signals` to the
next. A signal that is recorded and not blocked has `signal_pending` set, as long as no mask change
unblocks a recorded signal on its own.
-/

namespace Iqemu64
open SigSet TaskState BitVec

namespace TaskState

inductive SigEvent where
  | host (forwarded : Bool) (sig : ℕ)
  | sigprocmask (how : SigHow) (set : Option SigSet)
  | turn (fits : FrameFits) (fuel : ℕ)

/-- The kernel runs the handler for signals that the thread does not block, and never for `SIGKILL`
and `SIGSTOP`. -/
inductive Step : TaskState → SigEvent → TaskState → Prop
  | host {ts : TaskState} {forwarded : Bool} {sig : ℕ} (hmask : sigismember ts.hostMask sig = false)
      (hkill : sig ≠ sigkill) (hstop : sig ≠ sigstop) :
      Step ts (.host forwarded sig) (ts.hostSignalHandler forwarded sig)
  | sigprocmask {ts : TaskState} {how : SigHow} {set : Option SigSet} :
      Step ts (.sigprocmask how set) (ts.doSigprocmask how set)
  | turn {ts ts' : TaskState} {fits : FrameFits} {fuel : ℕ}
      (h : ts.processPendingTurn fits fuel = some ts') : Step ts (.turn fits fuel) ts'

def Recorded (ts : TaskState) (sig : ℕ) : Prop :=
  1 ≤ sig ∧ sig ≤ targetNsig ∧ (ts.sigtab sig ≠ 0 ∨ ts.syncSignal = sig)

def NotForgotten (ts : TaskState) : Prop :=
  ∀ sig, ts.Recorded sig → sigismember ts.signalMask sig = false → ts.signalPending = true

def KeepsBlocked (ts : TaskState) (how : SigHow) (set : Option SigSet) : Prop :=
  ts.signalPending = true ∨ ∀ sig s, ts.Recorded sig → set = some s →
    match how with
    | .block => True
    | .unblock => sigismember s sig = false
    | .setmask => sigismember s sig = true

def Careful (ts : TaskState) : SigEvent → Prop
  | .host _ _ => True
  | .sigprocmask how set => ts.KeepsBlocked how set
  | .turn fits _ => ∀ sig ts', fits true sig ts' = true

structure Fresh (ts : TaskState) : Prop where
  syncSignal : ts.syncSignal = 0
  sigtab : ∀ sig, ts.sigtab sig = 0
  inSigsuspend : ts.inSigsuspend = false

section Masks

theorem sigismember_sigdelset {set : SigSet} {sig sig' : ℕ} (h : 1 ≤ sig) (h' : 1 ≤ sig')
    (hne : sig ≠ sig') : sigismember (sigdelset set sig') sig = sigismember set sig := by
  unfold sigismember sigdelset
  rw [getLsbD_and, getLsbD_not, getLsbD_twoPow]
  by_cases hlt : sig - 1 < 32
  · simp [hlt]
    intro _
    omega
  · rw [getLsbD_of_ge _ _ (by omega)]
    rfl

theorem sigismember_doSigprocmask {ts : TaskState} {how : SigHow} {set : SigSet} {sig : ℕ}
    (h : 1 ≤ sig) (hkill : sig ≠ sigkill) (hstop : sig ≠ sigstop) :
    sigismember (ts.doSigprocmask how (some set)).signalMask sig =
      match how with
      | .block => sigismember ts.signalMask sig || sigismember set sig
      | .unblock => sigismember ts.signalMask sig && !(sigismember set sig)
      | .setmask => sigismember set sig := by
  simp only [doSigprocmask]
  rw [sigismember_sigdelset h (by decide) hstop, sigismember_sigdelset h (by decide) hkill]
  unfold sigismember
  cases how with
  | block => exact getLsbD_or
  | unblock =>
    simp only [getLsbD_and, getLsbD_not]
    by_cases hlt : sig - 1 < 32
    · simp [hlt]
    · rw [getLsbD_of_ge ts.signalMask _ (by omega)]
      rfl
  | setmask => rfl

end Masks

section Turn
variable {ts ts' : TaskState} {fits : FrameFits} {fuel sig : ℕ}

structure Handled (sync fit : Bool) (ts ts' : TaskState) : Prop where
  suspend : ts.inSigsuspend = false → ts'.inSigsuspend = false
  table : ∀ s, ts'.sigtab s = ts.sigtab s ∨ ts'.sigtab s = 0
  sync : sync = true → fit = true → ts'.syncSignal = 0

theorem handlePendingSignal_handled {fit sync : Bool}
    (h : ts.handlePendingSignal fit sync sig = some ts') : Handled sync fit ts ts' := by
  -- the signal is taken from its record first
  have htaken : Handled sync true ts
      (if sync then { ts with syncSignal := 0 } else ts.setPending sig 0) := by
    cases sync with
    | true => exact ⟨fun h => h, fun _ => Or.inl rfl, fun _ _ => rfl⟩
    | false =>
      refine ⟨fun h => h, fun s => ?_, fun h => nomatch h⟩
      by_cases hs : s = sig
      · exact Or.inr (by simp [setPending, hs])
      · exact Or.inl (by simp [setPending, hs])
  unfold handlePendingSignal at h
  generalize (if sync then { ts with syncSignal := 0 } else ts.setPending sig 0) = ts₀ at h htaken
  obtain ⟨hsuspend, htable, hsync⟩ := htaken
  have hsame : some ts₀ = some ts' → Handled sync fit ts ts' := by
    intro heq
    cases heq
    exact ⟨hsuspend, htable, fun hs _ => hsync hs rfl⟩
  simp only at h
  split at h
  · split_ifs at h
    · exact hsame h
    · exact hsame h
  · exact hsame h
  · exact nomatch h
  · cases h
    refine ⟨fun _ => ?_, fun s => ?_, fun hs hfit => ?_⟩
    · split_ifs <;> simp
    · split_ifs <;> simpa using htable s
    · simp only [hfit, if_true]
      split_ifs <;> exact hsync hs rfl

theorem unblockSync_sigtab : (ts.unblockSync sig).sigtab = ts.sigtab := by
  unfold unblockSync
  split_ifs <;> rfl

theorem unblockSync_inSigsuspend : (ts.unblockSync sig).inSigsuspend = ts.inSigsuspend := by
  unfold unblockSync
  split_ifs <;> rfl

/-- Nothing that is not blocked is left by a search for pending signals. -/
theorem nextPending_none (hsuspend : ts.inSigsuspend = false) (h : ts.nextPending = none)
    (hlow : 1 ≤ sig) (hhigh : sig ≤ targetNsig) (hrec : ts.sigtab sig ≠ 0) :
    sigismember ts.signalMask sig = true := by
  have hsig := List.find?_eq_none.mp h sig (by
    rw [List.mem_range'_1]
    unfold targetNsig at hhigh ⊢
    omega)
  simpa [hrec, blockedSet, hsuspend] using hsig

structure Scanned (ts ts' : TaskState) : Prop where
  suspend : ts'.inSigsuspend = false
  table : ∀ s, ts'.sigtab s = ts.sigtab s ∨ ts'.sigtab s = 0
  sync : ts'.syncSignal = 0
  blocked : ∀ s, 1 ≤ s → s ≤ targetNsig → ts'.sigtab s ≠ 0 → sigismember ts'.signalMask s = true

theorem scan_scanned (hfits : ∀ sig ts', fits true sig ts' = true) (hsuspend : ts.inSigsuspend = false)
    (h : scan fits fuel ts = some ts') : Scanned ts ts' := by
  induction fuel generalizing ts with
  | zero => exact nomatch h
  | succ fuel ih =>
    rw [scan] at h
    obtain ⟨ts₁, hsync, hrest⟩ := Option.bind_eq_some_iff.mp h
    -- the synchronous signal, if there is one, has been taken
    have h₁ : ts₁.inSigsuspend = false ∧ ts₁.syncSignal = 0 ∧
        ∀ s, ts₁.sigtab s = ts.sigtab s ∨ ts₁.sigtab s = 0 := by
      split_ifs at hsync with hzero
      · have hh := handlePendingSignal_handled hsync
        exact ⟨hh.suspend (unblockSync_inSigsuspend.trans hsuspend), hh.sync rfl (hfits _ _), by
          simpa [unblockSync_sigtab] using hh.table⟩
      · cases hsync
        exact ⟨hsuspend, by simpa using hzero, fun _ => Or.inl rfl⟩
    obtain ⟨hs₁, hz₁, ht₁⟩ := h₁
    cases hnext : ts₁.nextPending with
    | none =>
      rw [hnext] at hrest
      cases hrest
      exact ⟨hs₁, ht₁, hz₁, fun s hlow hhigh => nextPending_none hs₁ hnext hlow hhigh⟩
    | some sig =>
      rw [hnext] at hrest
      obtain ⟨ts₂, hhandle, hscan⟩ := Option.bind_eq_some_iff.mp hrest
      have hh := handlePendingSignal_handled hhandle
      have hs := ih (hh.suspend hs₁) hscan
      refine ⟨hs.suspend, fun s => ?_, hs.sync, hs.blocked⟩
      rcases hs.table s with h₂ | h₂
      · rcases hh.table s with h₃ | h₃
        · rw [h₂, h₃]
          exact ht₁ s
        · exact Or.inr (h₂.trans h₃)
      · exact Or.inr h₂

end Turn

structure Watched (ts : TaskState) : Prop where
  suspend : ts.inSigsuspend = false
  sync : ts.syncSignal = 0
  kill : ts.sigtab sigkill = 0
  stop : ts.sigtab sigstop = 0
  notForgotten : ts.NotForgotten

theorem Fresh.watched {ts : TaskState} (h : ts.Fresh) : ts.Watched := by
  refine ⟨h.inSigsuspend, h.syncSignal, h.sigtab _, h.sigtab _, fun sig hrec _ => ?_⟩
  obtain ⟨hlow, -, hrec⟩ := hrec
  rcases hrec with hrec | hrec
  · exact absurd (h.sigtab sig) hrec
  · rw [h.syncSignal] at hrec
    omega

namespace Watched
variable {ts ts' : TaskState}

theorem hostSignalHandler (h : ts.Watched) (forwarded : Bool) {sig : ℕ} (hkill : sig ≠ sigkill)
    (hstop : sig ≠ sigstop) : (ts.hostSignalHandler forwarded sig).Watched := by
  unfold TaskState.hostSignalHandler
  split_ifs
  · exact h
  · exact h
  · refine ⟨h.suspend, h.sync, ?_, ?_, fun _ _ _ => rfl⟩
    · exact (Function.update_of_ne hkill.symm _ _).trans h.kill
    · exact (Function.update_of_ne hstop.symm _ _).trans h.stop

theorem doSigprocmask (h : ts.Watched) {how : SigHow} {set : Option SigSet}
    (hcare : ts.KeepsBlocked how set) : (ts.doSigprocmask how set).Watched := by
  cases set with
  | none => exact h
  | some set =>
    refine ⟨h.suspend, h.sync, h.kill, h.stop, fun sig hrec hmask => ?_⟩
    change ts.Recorded sig at hrec
    change ts.signalPending = true
    rcases hcare with hset | hcare
    · exact hset
    · have hkeep := hcare sig set hrec rfl
      obtain ⟨hlow, hhigh, htab⟩ := hrec
      have hne : ts.sigtab sig ≠ 0 := htab.resolve_right (by rw [h.sync]; omega)
      have hkill : sig ≠ sigkill := by
        rintro rfl
        exact hne h.kill
      have hstop : sig ≠ sigstop := by
        rintro rfl
        exact hne h.stop
      rw [sigismember_doSigprocmask hlow hkill hstop] at hmask
      refine h.notForgotten sig ⟨hlow, hhigh, htab⟩ ?_
      cases how with
      | block => exact (Bool.or_eq_false_iff.mp hmask).1
      | unblock => simpa [hkeep] using hmask
      | setmask => exact absurd (hkeep.symm.trans hmask) (by decide)

theorem processPendingTurn (h : ts.Watched) {fits : FrameFits} {fuel : ℕ}
    (hfits : ∀ sig ts', fits true sig ts' = true) (hturn : ts.processPendingTurn fits fuel = some ts') :
    ts'.Watched := by
  unfold TaskState.processPendingTurn at hturn
  split_ifs at hturn
  · obtain ⟨ts₁, hscan, rfl⟩ := Option.map_eq_some_iff.mp hturn
    have hs := scan_scanned hfits
      (show ({ ts with hostMask := sigfillset } : TaskState).inSigsuspend = false from h.suspend) hscan
    refine ⟨rfl, hs.sync, ?_, ?_, fun sig hrec hmask => ?_⟩
    · exact (hs.table sigkill).elim (fun heq => heq.trans h.kill) id
    · exact (hs.table sigstop).elim (fun heq => heq.trans h.stop) id
    · -- what is still recorded is blocked
      obtain ⟨hlow, hhigh, hrec⟩ := hrec
      rcases hrec with hrec | hrec
      · exact absurd ((hs.blocked sig hlow hhigh hrec).symm.trans hmask) (by decide)
      · change ts₁.syncSignal = sig at hrec
        rw [hs.sync] at hrec
        omega
  · cases hturn
    exact ⟨rfl, h.sync, h.kill, h.stop, h.notForgotten⟩

theorem step (h : ts.Watched) {e : SigEvent} (hcare : ts.Careful e) (hstep : Step ts e ts') :
    ts'.Watched := by
  cases hstep with
  | host hmask hkill hstop => exact h.hostSignalHandler _ hkill hstop
  | sigprocmask => exact h.doSigprocmask hcare
  | turn hturn => exact h.processPendingTurn hcare hturn

end Watched

/-- No signal of a thread is forgotten in a run in which mask changes leave recorded signals blocked
and frames for synchronous signals can be written. -/
theorem notForgotten_of_careful (ts : TaskState) (hfresh : ts.Fresh) (es : List SigEvent)
    (hcare : Runs.Along Step Careful ts es) (ts' : TaskState) (h : Runs.Reaches Step ts es ts') :
    ts'.NotForgotten :=
  (hcare.reaches_invariant (fun _ _ _ hw hc hs => Watched.step hw hc hs) hfresh.watched
    h).notForgotten

theorem fresh_default : ({} : TaskState).Fresh := ⟨rfl, fun _ => rfl, rfl⟩

/-- A child signal arrives and is taken. -/
theorem notForgotten_of_careful_child : ∃ ts', Runs.Reaches Step {}
    [.host false sigchld, .turn (fun _ _ _ => true) 2] ts' ∧ ts'.NotForgotten := by
  obtain ⟨ts', h⟩ : ∃ ts', Runs.Reaches Step {}
      [.host false sigchld, .turn (fun _ _ _ => true) 2] ts' :=
    ⟨_, .cons (.host (by decide) (by decide) (by decide)) (.cons (.turn rfl) (.nil _))⟩
  have hcare : Runs.Along Step Careful {} [.host false sigchld, .turn (fun _ _ _ => true) 2] :=
    ⟨trivial, fun _ _ => ⟨fun _ _ => rfl, fun _ _ => trivial⟩⟩
  exact ⟨ts', h, notForgotten_of_careful {} fresh_default _ hcare ts' h⟩

/-- Signal 30 arrives between a mask change that blocks it and one that unblocks it, and is not seen
again. -/
theorem not_notForgotten_unblocked : ∃ ts', Runs.Reaches Step {}
    [.sigprocmask .setmask (some (sigaddset 0 30)), .host false 30, .turn (fun _ _ _ => true) 1,
      .sigprocmask .setmask (some 0)] ts' ∧ ¬ ts'.NotForgotten := by
  refine ⟨_, .cons .sigprocmask (.cons (.host (by decide) (by decide) (by decide))
    (.cons (.turn rfl) (.cons .sigprocmask (.nil _)))), fun h => ?_⟩
  exact absurd (h 30 ⟨by decide, by decide, Or.inl (by decide)⟩ (by decide)) (by decide)

end TaskState

end Iqemu64
