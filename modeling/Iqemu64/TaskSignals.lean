import Mathlib.Data.BitVec
import Mathlib.Tactic

/-!
# Signals of a thread

The pending signals and the blocked mask of one thread, as the host's signal handler, `doSigprocmask`
and `processPendingSignals` change them. Host and guest number signals alike, from 1 to 32. A default
action that ends the process is `none`.
-/

namespace Iqemu64

/-- A set of signals; signal `n` is bit `n - 1`. -/
abbrev SigSet : Type := BitVec 32

namespace SigSet

def sigismember (set : SigSet) (sig : ℕ) : Bool := set.getLsbD (sig - 1)

def sigaddset (set : SigSet) (sig : ℕ) : SigSet := set ||| BitVec.twoPow 32 (sig - 1)

def sigdelset (set : SigSet) (sig : ℕ) : SigSet := set &&& ~~~BitVec.twoPow 32 (sig - 1)

def sigfillset : SigSet := BitVec.allOnes 32

end SigSet

open SigSet

def sigkill : ℕ := 9
def sigbus : ℕ := 10
def sigsegv : ℕ := 11
def sigurg : ℕ := 16
def sigstop : ℕ := 17
def sigtstp : ℕ := 18
def sigcont : ℕ := 19
def sigchld : ℕ := 20
def sigttin : ℕ := 21
def sigttou : ℕ := 22
def sigwinch : ℕ := 28

def targetNsig : ℕ := 32

inductive SigHandler where
  | dfl | ign | err
  | code (addr : ℕ)
  deriving DecidableEq, Repr

/-- `struct target_sigaction`. -/
structure SigAction where
  handler : SigHandler := .dfl
  mask : BitVec 64 := 0
  nodefer : Bool := false
  resethand : Bool := false
  onstack : Bool := false
  siginfo : Bool := false
  deriving DecidableEq, Repr

def targetToHostSigset (s : BitVec 64) : SigSet :=
  (List.range' 1 targetNsig).foldl
    (fun d sig => if sig < 32 ∧ s.getLsbD (sig - 1) = true then sigaddset d sig else d) 0

/-- The signal part of `TaskState`, with the handler table of the process, the host's mask of the
thread and the signals for which frames have been built. `sigtab sig` is the `pending` field of entry
`sig - 1`. -/
structure TaskState where
  syncSignal : ℕ := 0
  sigtab : ℕ → ℕ := fun _ => 0
  signalMask : SigSet := 0
  sigsuspendMask : SigSet := 0
  inSigsuspend : Bool := false
  signalPending : Bool := false
  hostMask : SigSet := 0
  sigactTable : ℕ → SigAction := fun _ => {}
  frames : List ℕ := []

namespace TaskState

variable (ts : TaskState)

def setPending (sig value : ℕ) : TaskState := { ts with sigtab := Function.update ts.sigtab sig value }

def setHandler (sig : ℕ) (handler : SigHandler) : TaskState :=
  { ts with sigactTable := Function.update ts.sigactTable sig { ts.sigactTable sig with handler } }

@[simp] theorem setHandler_syncSignal (sig : ℕ) (handler : SigHandler) :
    (ts.setHandler sig handler).syncSignal = ts.syncSignal := rfl

@[simp] theorem setHandler_sigtab (sig : ℕ) (handler : SigHandler) :
    (ts.setHandler sig handler).sigtab = ts.sigtab := rfl

@[simp] theorem setHandler_inSigsuspend (sig : ℕ) (handler : SigHandler) :
    (ts.setHandler sig handler).inSigsuspend = ts.inSigsuspend := rfl

inductive SigHow where
  | block | unblock | setmask
  deriving DecidableEq, Repr

/-- `do_sigprocmask` without the old mask it hands out. The call of `block_signals` is compiled out. -/
def doSigprocmask (how : SigHow) (set : Option SigSet) : TaskState :=
  match set with
  | none => ts
  | some set =>
    let mask :=
      match how with
      | .block => ts.signalMask ||| set
      | .unblock => ts.signalMask &&& ~~~set
      | .setmask => set
    { ts with signalMask := sigdelset (sigdelset mask sigkill) sigstop }

def hostSignalHandler (forwarded : Bool) (sig : ℕ) : TaskState :=
  if (sig = sigsegv ∨ sig = sigbus) ∧ forwarded = true then ts
  else if sig < 1 ∨ sig > targetNsig then ts
  else
    { ts.setPending sig sig with
      signalPending := true
      hostMask := sigdelset (sigdelset sigfillset sigsegv) sigbus }

def queueSignal (sig : ℕ) : TaskState := { ts with syncSignal := sig, signalPending := true }

def forceSigsegv (oldsig : ℕ) : TaskState :=
  (if oldsig = sigsegv then ts.setHandler oldsig .dfl else ts).queueSignal sigsegv

@[simp] theorem forceSigsegv_sigtab (oldsig : ℕ) : (ts.forceSigsegv oldsig).sigtab = ts.sigtab := by
  unfold forceSigsegv
  split_ifs <;> rfl

@[simp] theorem forceSigsegv_inSigsuspend (oldsig : ℕ) :
    (ts.forceSigsegv oldsig).inSigsuspend = ts.inSigsuspend := by
  unfold forceSigsegv
  split_ifs <;> rfl

def handlePendingSignal (fits sync : Bool) (sig : ℕ) : Option TaskState :=
  let ts := if sync then { ts with syncSignal := 0 } else ts.setPending sig 0
  let sa := ts.sigactTable sig
  match sa.handler with
  | .dfl =>
    if sig = sigtstp ∨ sig = sigttin ∨ sig = sigttou then some ts
    else if sig ≠ sigchld ∧ sig ≠ sigurg ∧ sig ≠ sigwinch ∧ sig ≠ sigcont then none
    else some ts
  | .ign => some ts
  | .err => none
  | .code _ =>
    let set := targetToHostSigset sa.mask
    let set := if sa.nodefer then set else sigaddset set sig
    let blocked := if ts.inSigsuspend then ts.sigsuspendMask else ts.signalMask
    let ts := { ts with signalMask := blocked ||| set, inSigsuspend := false }
    let ts := if fits then { ts with frames := ts.frames ++ [sig] } else ts.forceSigsegv sig
    some (if sa.resethand then ts.setHandler sig .dfl else ts)

def blockedSet : SigSet := if ts.inSigsuspend then ts.sigsuspendMask else ts.signalMask

def nextPending : Option ℕ :=
  (List.range' 1 targetNsig).find? fun sig =>
    ts.sigtab sig ≠ 0 && !(sigismember ts.blockedSet sig)

def unblockSync (sig : ℕ) : TaskState :=
  if sigismember ts.signalMask sig = true ∨ (ts.sigactTable sig).handler = .ign then
    { ts.setHandler sig .dfl with signalMask := sigdelset ts.signalMask sig }
  else ts

abbrev FrameFits : Type := Bool → ℕ → TaskState → Bool

def scan (fits : FrameFits) : ℕ → TaskState → Option TaskState
  | 0, _ => none
  | fuel + 1, ts =>
    (if ts.syncSignal ≠ 0 then
      let sig := ts.syncSignal
      let ts := ts.unblockSync sig
      ts.handlePendingSignal (fits true sig ts) true sig
    else some ts).bind fun ts =>
      match ts.nextPending with
      | some sig => (ts.handlePendingSignal (fits false sig ts) false sig).bind (scan fits fuel)
      | none => some ts

def processPendingTurn (fits : FrameFits) (fuel : ℕ) : Option TaskState :=
  if ts.signalPending then
    (scan fits fuel { ts with hostMask := sigfillset }).map fun ts =>
      { ts with
        signalPending := false
        inSigsuspend := false
        hostMask := sigdelset (sigdelset ts.signalMask sigsegv) sigbus }
  else some { ts with inSigsuspend := false }

end TaskState

end Iqemu64
