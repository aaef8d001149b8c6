import Iqemu64.TcgExec

/-!
# Liveness analysis

`liveness_pass_1` walks the list of ops backwards with a state for each temp: whether it is dead, and
whether its value has to be in memory. It drops the ops whose results nobody needs, narrows double-word
arithmetic of which one half is dead, and marks the arguments that die and the outputs to store.

A temp is needed unless it is dead and need not be in memory. Two runs whose states agree on the needed
temps take the same course: that is the relation between the list and what is left of it. The register
preferences of the pass have no part in this and are left out.
-/

namespace Iqemu64

namespace Tcg

structure TempState where
  dead : Bool
  mem : Bool
  deriving DecidableEq, Repr

abbrev LaState := Temp → TempState

def TempState.unneeded (st : TempState) : Bool := st == ⟨true, false⟩

structure Life where
  syncOuts : List Bool
  deadOuts : List Bool
  deadIns : List Bool
  deriving DecidableEq, Repr

structure MarkedOp where
  op : Op
  life : Life
  deriving DecidableEq, Repr

section Pass

variable (T : TempTable)

def laFuncEnd : LaState := fun t => if T.isGlobal t then ⟨true, true⟩ else ⟨true, false⟩

def laBbEnd : LaState := fun t => if T.isGlobal t || T.tempLocal t then ⟨true, true⟩ else ⟨true, false⟩

def laGlobalSync (s : LaState) : LaState := fun t => if T.isGlobal t then { s t with mem := true } else s t

def laGlobalKill (s : LaState) : LaState := fun t => if T.isGlobal t then ⟨true, true⟩ else s t

def laOutputs : List Temp → LaState → List Bool × List Bool × LaState
  | [], s => ([], [], s)
  | t :: ts, s =>
    let r := laOutputs ts (Function.update s t ⟨true, false⟩)
    ((s t).mem :: r.1, (s t).dead :: r.2.1, r.2.2)

def laEffect (op : Op) (s : LaState) : LaState :=
  if op.opc = .call then
    if !(noWriteGlobals (callFlags op.consts) || noReadGlobals (callFlags op.consts)) then laGlobalKill T s
    else if !noReadGlobals (callFlags op.consts) then laGlobalSync T s
    else s
  else if op.opc.bbExit then laFuncEnd T
  else if op.opc.bbEnd then laBbEnd T
  else if op.opc.sideEffects then laGlobalSync T s
  else s

def laInputs (ins : List Temp) (s : LaState) : LaState :=
  fun t => if t ∈ ins then { s t with dead := false } else s t

def laKeep (op : Op) (s : LaState) : MarkedOp × LaState :=
  let (sync, dead, s₁) := laOutputs op.outs s
  let s₂ := laEffect T op s₁
  (⟨op, ⟨sync, dead, op.ins.map fun t => (s₂ t).dead⟩⟩, laInputs op.ins s₂)

structure HasMulh where
  muluh : Ty → Bool
  mulsh : Ty → Bool

def laAddsub2 (s : LaState) (new : Opcode) (op : Op) : Option Op :=
  match op.outs, op.ins with
  | [al, ah], [bl, _, cl, _] =>
    if (s ah).unneeded then
      if (s al).unneeded then none else some ⟨new, [al], [bl, cl], op.consts⟩
    else some op
  | _, _ => some op

def laMul2 (s : LaState) (new new2 : Opcode) (have2 : Bool) (op : Op) : Option Op :=
  match op.outs, op.ins with
  | [lo, hi], [a, b] =>
    if (s hi).unneeded then
      if (s lo).unneeded then none else some ⟨new, [lo], [a, b], op.consts⟩
    else if (s lo).unneeded && have2 then some ⟨new2, [hi], [a, b], op.consts⟩
    else some op
  | _, _ => some op

def laSelect (H : HasMulh) (s : LaState) (op : Op) : Option Op :=
  match op.opc with
  | .call =>
    if noSideEffects (callFlags op.consts) && op.outs.all fun t => (s t).unneeded then none else some op
  | .add2 w => laAddsub2 s (.bin .add w) op
  | .sub2 w => laAddsub2 s (.bin .sub w) op
  | .mulu2 w => laMul2 s (.bin .mul w) (.bin .muluh w) (H.muluh w) op
  | .muls2 w => laMul2 s (.bin .mul w) (.bin .mulsh w) (H.mulsh w) op
  | opc =>
    if !opc.sideEffects && opc.nbOargs != 0 && op.outs.all fun t => (s t).unneeded then none
    else some op

def laOp (H : HasMulh) (op : Op) (s : LaState) : Option MarkedOp × LaState :=
  match op.opc with
  | .insnStart => (some ⟨op, ⟨[], [], []⟩⟩, s)
  | .discard => (some ⟨op, ⟨[], [], []⟩⟩, Function.update s op.out0 ⟨true, false⟩)
  | _ =>
    match laSelect H s op with
    | none => (none, s)
    | some op' => ((laKeep T op' s).1, (laKeep T op' s).2)

def laWalk (H : HasMulh) : List Op → List MarkedOp × LaState
  | [] => ([], laFuncEnd T)
  | op :: ops =>
    let r := laWalk H ops
    let r' := laOp T H op r.2
    (r'.1.toList ++ r.1, r'.2)

def livenessPass1 (H : HasMulh) (ops : List Op) : List MarkedOp := (laWalk T H ops).1

end Pass

section States

variable {T : TempTable} {s : LaState} {t : Temp}

theorem laOutputs_state (outs : List Temp) (s : LaState) (t : Temp) :
    (laOutputs outs s).2.2 t = if t ∈ outs then ⟨true, false⟩ else s t := by
  induction outs generalizing s with
  | nil => simp [laOutputs]
  | cons o outs ih =>
    rw [laOutputs]
    simp only [ih]
    by_cases ho : t = o
    · subst ho
      simp
    · simp [ho]

def LaState.Needs (s : LaState) (t : Temp) : Prop := (s t).unneeded = false

theorem needs_laInputs (ins : List Temp) (h : s.Needs t) : (laInputs ins s).Needs t := by
  unfold LaState.Needs laInputs
  split
  · simp [TempState.unneeded]
  · exact h

theorem needs_laInputs_of_mem {ins : List Temp} (h : t ∈ ins) : (laInputs ins s).Needs t := by
  simp [LaState.Needs, laInputs, h, TempState.unneeded]

theorem needs_laGlobalSync (h : T.isGlobal t = true ∨ s.Needs t) : (laGlobalSync T s).Needs t := by
  unfold LaState.Needs laGlobalSync
  split
  · simp [TempState.unneeded]
  · simp_all [LaState.Needs]

theorem needs_laGlobalKill (h : T.isGlobal t = true ∨ s.Needs t) : (laGlobalKill T s).Needs t := by
  unfold LaState.Needs laGlobalKill
  split
  · simp [TempState.unneeded]
  · simp_all [LaState.Needs]

theorem needs_laFuncEnd (h : T.isGlobal t = true) : (laFuncEnd T).Needs t := by
  simp [LaState.Needs, laFuncEnd, h, TempState.unneeded]

theorem needs_laBbEnd (h : (T.isGlobal t || T.tempLocal t) = true) : (laBbEnd T).Needs t := by
  simp [LaState.Needs, laBbEnd, h, TempState.unneeded]

theorem Opcode.bbExit_eq_false {opc : Opcode} (h : opc.bbEnd = false) : opc.bbExit = false := by
  cases opc <;> simp_all [Opcode.bbEnd, Opcode.bbExit]

theorem needs_laEffect {op : Op} (hend : op.opc.bbEnd = false) (h : s.Needs t) :
    (laEffect T op s).Needs t := by
  simp only [laEffect, hend, Opcode.bbExit_eq_false hend, Bool.false_eq_true, if_false]
  split
  · split
    · exact needs_laGlobalKill (.inr h)
    · split
      · exact needs_laGlobalSync (.inr h)
      · exact h
  · split
    · exact needs_laGlobalSync (.inr h)
    · exact h

theorem needs_laKeep {op : Op} (hend : op.opc.bbEnd = false) (hout : t ∉ op.outs) (h : s.Needs t) :
    (laKeep T op s).2.Needs t := by
  apply needs_laInputs
  apply needs_laEffect hend
  rw [LaState.Needs, laOutputs_state, if_neg hout]
  exact h

theorem needs_laKeep_of_mem_ins {op : Op} (h : t ∈ op.ins) : (laKeep T op s).2.Needs t :=
  needs_laInputs_of_mem h

/-- The op's effect on the globals is a reason to have them all right. -/
theorem needs_laKeep_of_effect {op : Op} (h : ∀ s, (laEffect T op s).Needs t) :
    (laKeep T op s).2.Needs t := needs_laInputs _ (h _)

end States

end Tcg

end Iqemu64
