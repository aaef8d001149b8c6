import Iqemu64.Liveness

/-!
# One op before and after liveness analysis

Two runs are at the same point if they agree on the temps that are needed. An op that the pass keeps
takes them to such a point again and shows the same; an op that it narrows does so too, and one that it
removes shows nothing and writes only to temps that nobody needs.
-/

namespace Iqemu64

namespace Tcg

variable {T : TempTable} {Val World : Type} [Inhabited Val] {M : Meaning T Val World}

structure Agrees (M : Meaning T Val World) (s : LaState) (σ σ' : State Val World) : Prop where
  temps : ∀ t, s.Needs t → M.view t (σ.temps t) = M.view t (σ'.temps t)
  world : σ.world = σ'.world
  endings : σ.endings = σ'.endings

def allNeeded : LaState := fun _ => ⟨false, false⟩

def NextAgrees (M : Meaning T Val World) (s : LaState) : Next Val World → Next Val World → Prop
  | .on σ, .on σ' => Agrees M s σ σ'
  | .jump l σ, .jump l' σ' => l = l' ∧ Agrees M allNeeded σ σ'
  | .leave how σ, .leave how' σ' => how = how' ∧ M.globals σ = M.globals σ' ∧ σ.world = σ'.world
  | _, _ => False

def Event.observed : Event T Val → Bool
  | .load .. => false
  | .call consts _ => !noSideEffects (callFlags consts)
  | _ => true

section Step

variable {s s' : LaState} {σ σ' : State Val World} {junk : ℕ → Temp → Val}

theorem Agrees.args {ins : List Temp} (h : Agrees M s' σ σ') (hs : ∀ t ∈ ins, s'.Needs t) :
    M.args σ ins = M.args σ' ins :=
  List.map_congr_left fun t ht => h.temps t (hs t ht)

theorem Agrees.globals (h : Agrees M s' σ σ') (hs : ∀ t, T.isGlobal t → s'.Needs t) :
    M.globals σ = M.globals σ' := by
  funext i
  exact h.temps i (hs i (by simp [TempTable.isGlobal]))

theorem view_setOuts_congr {outs : List Temp} {vals : List Val} {τ τ' : Temp → Val} {t : Temp}
    (h : t ∉ outs → M.view t (τ t) = M.view t (τ' t)) :
    M.view t (setOuts outs vals τ t) = M.view t (setOuts outs vals τ' t) := by
  induction outs generalizing vals τ τ' with
  | nil => exact h (by simp)
  | cons o outs ih =>
    apply ih
    intro ht
    by_cases ho : t = o
    · subst ho
      simp
    · rw [Function.update_of_ne ho, Function.update_of_ne ho]
      exact h (by simp [ho, ht])

theorem Agrees.set {outs : List Temp} (h : Agrees M s' σ σ')
    (hs : ∀ t, t ∉ outs → s.Needs t → s'.Needs t) (vals : List Val) :
    Agrees M s (σ.set outs vals) (σ'.set outs vals) :=
  ⟨fun t ht => view_setOuts_congr fun hout => h.temps t (hs t hout ht), h.world, h.endings⟩

/-- After an ending the runs agree on what was needed and kept, and on what was replaced. -/
theorem Agrees.fade {e : Ending} (h : Agrees M s' σ σ')
    (hs : ∀ t, e.keeps T t = true → s.Needs t → s'.Needs t) :
    Agrees M s (σ.fade (destroyed T junk) e) (σ'.fade (destroyed T junk) e) := by
  refine ⟨fun t ht => ?_, h.world, by simp [State.fade, h.endings]⟩
  simp only [State.fade, destroyed, h.endings]
  split
  · next hkeep => exact h.temps t (hs t hkeep ht)
  · rfl

theorem Agrees.refl (σ : State Val World) : Agrees M s σ σ := ⟨fun _ _ => rfl, rfl, rfl⟩

theorem Agrees.trans {σ'' : State Val World} (h : Agrees M s σ σ') (h' : Agrees M s σ' σ'') :
    Agrees M s σ σ'' :=
  ⟨fun t ht => (h.temps t ht).trans (h'.temps t ht), h.world.trans h'.world,
    h.endings.trans h'.endings⟩

theorem Agrees.setGlobals (h : Agrees M s' σ σ') (g : Globals T Val) (w : World)
    (hs : ∀ t, T.isGlobal t = false → s.Needs t → s'.Needs t) :
    Agrees M s { σ with temps := setGlobals g σ.temps, world := w }
      { σ' with temps := setGlobals g σ'.temps, world := w } := by
  refine ⟨fun t ht => ?_, rfl, h.endings⟩
  simp only [Tcg.setGlobals]
  split
  · rfl
  · next hglob => exact h.temps t (hs t (by simpa [TempTable.isGlobal] using hglob) ht)

/-- A helper that returns the globals it was given changes nothing that can be seen. -/
theorem view_setGlobals_globals (σ : State Val World) (t : Temp) :
    M.view t (setGlobals (M.globals σ) σ.temps t) = M.view t (σ.temps t) := by
  unfold setGlobals
  split
  · exact M.view_view _ _
  · rfl

end Step

section Keep

variable {s : LaState} {σ σ' : State Val World} {junk : ℕ → Temp → Val} {op : Op}

def Alike (M : Meaning T Val World) (s : LaState) (r r' : List (Event T Val) × Next Val World) : Prop :=
  r.1.filter Event.observed = r'.1.filter Event.observed ∧ NextAgrees M s r.2 r'.2

theorem Agrees.laKeep_args (h : Agrees M (laKeep T op s).2 σ σ') : M.args σ op.ins = M.args σ' op.ins :=
  h.args fun _ ht => needs_laKeep_of_mem_ins ht

/-- At the end of a block the globals and local temps are needed. -/
theorem Agrees.laKeep_bbEnd (h : Agrees M (laKeep T op s).2 σ σ') (hend : op.opc.bbEnd = true)
    (hcall : op.opc ≠ .call) :
    M.globals σ = M.globals σ' := by
  refine h.globals fun t ht => needs_laKeep_of_effect fun s₁ => ?_
  simp only [laEffect, hcall, if_false, hend, if_true]
  split
  · exact needs_laFuncEnd ht
  · exact needs_laBbEnd (by simp [ht])

variable {opc : Opcode}

theorem Opcode.flags_of_plain
    (h : opc.kind = .compute ∨ opc.kind = .load ∨ opc.kind = .store ∨ opc.kind = .nop) :
    opc.bbEnd = false ∧ opc.sideEffects = false ∧ opc ≠ .call := by
  cases opc <;> simp_all [Opcode.kind, Opcode.bbEnd, Opcode.sideEffects]

theorem Opcode.flags_of_guest (h : opc.kind = .guest) :
    opc.bbEnd = false ∧ opc.sideEffects = true ∧ opc ≠ .call := by
  cases opc <;> simp_all [Opcode.kind, Opcode.bbEnd, Opcode.sideEffects]

theorem Opcode.flags_of_branch
    (h : opc.kind = .label ∨ opc.kind = .br ∨ opc.kind = .brcond) :
    opc.bbEnd = true ∧ opc.bbExit = false ∧ opc ≠ .call := by
  cases opc <;> simp_all [Opcode.kind, Opcode.bbEnd, Opcode.bbExit]

theorem Opcode.flags_of_exit
    (h : opc.kind = .exitTb ∨ opc.kind = .gotoPtr ∨ opc.kind = .gotoTb) :
    opc.bbEnd = true ∧ opc.bbExit = true ∧ opc ≠ .call := by
  cases opc <;> simp_all [Opcode.kind, Opcode.bbEnd, Opcode.bbExit]

theorem Opcode.eq_call_of_kind (h : opc.kind = .call) : opc = .call := by
  cases opc <;> simp_all [Opcode.kind]

/-- A branch or label finds every temp in the same state in both runs. -/
theorem Agrees.laKeep_fade_bbEnd (h : Agrees M (laKeep T op s).2 σ σ')
    (hk : op.opc.kind = .label ∨ op.opc.kind = .br ∨ op.opc.kind = .brcond) (s' : LaState) :
    Agrees M s' (σ.fade (destroyed T junk) .bbEnd) (σ'.fade (destroyed T junk) .bbEnd) := by
  obtain ⟨hend, hexit, hcall⟩ := Opcode.flags_of_branch hk
  refine h.fade fun t hkeep _ => needs_laKeep_of_effect fun s₁ => ?_
  simp only [laEffect, hcall, hexit, hend, if_false, if_true, Bool.false_eq_true]
  exact needs_laBbEnd hkeep

theorem Agrees.laKeep_fade_bbExit (h : Agrees M (laKeep T op s).2 σ σ') (hk : op.opc.kind = .gotoTb)
    (s' : LaState) :
    Agrees M s' (σ.fade (destroyed T junk) .bbExit) (σ'.fade (destroyed T junk) .bbExit) := by
  obtain ⟨-, hexit, hcall⟩ := Opcode.flags_of_exit (.inr (.inr hk))
  refine h.fade fun t hkeep _ => needs_laKeep_of_effect fun s₁ => ?_
  simp only [laEffect, hcall, hexit, if_false, if_true]
  exact needs_laFuncEnd hkeep

theorem Agrees.laKeep_set (h : Agrees M (laKeep T op s).2 σ σ') (hend : op.opc.bbEnd = false)
    (vals : List Val) : Agrees M s (σ.set op.outs vals) (σ'.set op.outs vals) :=
  h.set (fun _ hout ht => needs_laKeep hend hout ht) vals

theorem Agrees.withWorld (h : Agrees M s σ σ') (w : World) :
    Agrees M s { σ with world := w } { σ' with world := w } := ⟨h.temps, rfl, h.endings⟩

theorem alike_accessGuest (hk : op.opc.kind = .guest) (h : Agrees M (laKeep T op s).2 σ σ') :
    Alike M s (M.accessGuest op σ) (M.accessGuest op σ') := by
  obtain ⟨hend, hside, hcall⟩ := Opcode.flags_of_guest hk
  have hglob : M.globals σ = M.globals σ' := by
    refine h.globals fun t ht => needs_laKeep_of_effect fun s₁ => ?_
    simp only [laEffect, hcall, Opcode.bbExit_eq_false hend, hend, hside, if_false, if_true,
      Bool.false_eq_true]
    exact needs_laGlobalSync (.inl ht)
  unfold Meaning.accessGuest
  rw [h.laKeep_args, h.world]
  cases M.guest op.opc op.consts (M.args σ' op.ins) σ'.world with
  | ok r => exact ⟨rfl, (h.laKeep_set hend r.1).withWorld r.2⟩
  | error w => exact ⟨rfl, rfl, hglob, rfl⟩

theorem Meaning.callHelper_of_ok {r : List Val} {g : Globals T Val} {w : World}
    (h : M.helper op.consts (callFlags op.consts) (M.args σ op.ins) (M.globals σ) σ.world = .ok (r, g, w)) :
    M.callHelper op σ = ([.call op.consts (M.args σ op.ins)],
      .on ({ σ with temps := Tcg.setGlobals g σ.temps, world := w }.set op.outs r)) := by
  rw [callHelper, h]
  rfl

theorem Meaning.callHelper_of_error {w : World}
    (h : M.helper op.consts (callFlags op.consts) (M.args σ op.ins) (M.globals σ) σ.world = .error w) :
    M.callHelper op σ =
      ([.call op.consts (M.args σ op.ins)], .leave .exception { σ with world := w }) := by
  rw [callHelper, h]

/-- A helper that returns the globals it was given leaves the temps as they were. -/
theorem agrees_setGlobals_globals (σ : State Val World) (w : World) :
    Agrees M s { σ with temps := Tcg.setGlobals (M.globals σ) σ.temps, world := w }
      { σ with world := w } :=
  ⟨fun t _ => view_setGlobals_globals σ t, rfl, rfl⟩

theorem alike_callHelper (hk : op.opc.kind = .call) (h : Agrees M (laKeep T op s).2 σ σ') :
    Alike M s (M.callHelper op σ) (M.callHelper op σ') := by
  have hopc := Opcode.eq_call_of_kind hk
  have hend : op.opc.bbEnd = false := by rw [hopc]; rfl
  have hargs := h.laKeep_args
  have hneeds : ∀ t, t ∉ op.outs → s.Needs t → (laKeep T op s).2.Needs t :=
    fun _ hout ht => needs_laKeep hend hout ht
  cases hread : noReadGlobals (callFlags op.consts) with
  | true =>
    -- the helper sees no globals, and returns the ones it is given
    obtain ⟨r, w, hhelper⟩ :=
      M.noRead op.consts (callFlags op.consts) (M.args σ' op.ins) σ'.world hread
    rw [Meaning.callHelper_of_ok (by rw [hargs, h.world]; exact hhelper _),
      Meaning.callHelper_of_ok (hhelper _), hargs]
    refine ⟨rfl, ?_⟩
    have hset : Agrees M (laKeep T op s).2
        { σ with temps := Tcg.setGlobals (M.globals σ) σ.temps, world := w }
        { σ' with temps := Tcg.setGlobals (M.globals σ') σ'.temps, world := w } :=
      ⟨fun t ht => by rw [view_setGlobals_globals, view_setGlobals_globals]; exact h.temps t ht,
        rfl, h.endings⟩
    exact hset.set hneeds r
  | false =>
    have hglobal : ∀ t, T.isGlobal t = true → (laKeep T op s).2.Needs t := by
      refine fun t ht => needs_laKeep_of_effect fun s₁ => ?_
      simp only [laEffect, hopc, if_true, hread, Bool.or_false, Bool.not_false]
      split
      · exact needs_laGlobalKill (.inl ht)
      · exact needs_laGlobalSync (.inl ht)
    have hglobals := h.globals hglobal
    cases hhelper : M.helper op.consts (callFlags op.consts) (M.args σ' op.ins) (M.globals σ') σ'.world with
    | error w =>
      rw [Meaning.callHelper_of_error hhelper,
        Meaning.callHelper_of_error (by rw [hargs, hglobals, h.world]; exact hhelper), hargs]
      exact ⟨rfl, rfl, hglobals, rfl⟩
    | ok r =>
      rw [Meaning.callHelper_of_ok hhelper,
        Meaning.callHelper_of_ok (by rw [hargs, hglobals, h.world]; exact hhelper), hargs]
      refine ⟨rfl, (h.setGlobals r.2.1 r.2.2 fun _ _ ht => ht).set ?_ r.1⟩
      exact hneeds

theorem Op.WellFormed.outs_eq_nil (hwf : op.WellFormed) (hk : op.opc.kind = .nop ∨ op.opc.kind = .store) :
    op.outs = [] := by
  have hlen := hwf.outs_length (by rintro h; simp [h, Opcode.kind] at hk)
  have hzero : op.opc.nbOargs = 0 := by
    cases hopc : op.opc <;> simp_all [Opcode.kind, Opcode.nbOargs]
  exact List.eq_nil_of_length_eq_zero (hlen.trans hzero)

theorem alike_step (hwf : op.WellFormed) (hd : op.opc.kind ≠ .discard) (h : Agrees M (laKeep T op s).2 σ σ') :
    Alike M s (M.step (destroyed T junk) op σ) (M.step (destroyed T junk) op σ') := by
  have hargs := h.laKeep_args
  unfold Meaning.step
  cases hk : op.opc.kind with
  | discard => exact absurd hk hd
  | nop =>
    have hend := (Opcode.flags_of_plain (.inr (.inr (.inr hk)))).1
    have hset := h.laKeep_set hend []
    rw [hwf.outs_eq_nil (.inl hk)] at hset
    exact ⟨rfl, hset⟩
  | label =>
    have hend := Opcode.flags_of_branch (.inl hk)
    have hglob := h.laKeep_bbEnd hend.1 hend.2.2
    exact ⟨by simp [hglob], h.laKeep_fade_bbEnd (.inl hk) s⟩
  | br =>
    have hend := Opcode.flags_of_branch (.inr (.inl hk))
    have hglob := h.laKeep_bbEnd hend.1 hend.2.2
    exact ⟨by simp [hglob], rfl, h.laKeep_fade_bbEnd (.inr (.inl hk)) _⟩
  | brcond =>
    have hend := Opcode.flags_of_branch (.inr (.inr hk))
    have hglob := h.laKeep_bbEnd hend.1 hend.2.2
    simp only [hargs, hglob]
    split
    · exact ⟨rfl, rfl, h.laKeep_fade_bbEnd (.inr (.inr hk)) _⟩
    · exact ⟨rfl, h.laKeep_fade_bbEnd (.inr (.inr hk)) s⟩
  | exitTb =>
    have hend := Opcode.flags_of_exit (.inl hk)
    have hglob := h.laKeep_bbEnd hend.1 hend.2.2
    exact ⟨by simp [hglob], rfl, hglob, h.world⟩
  | gotoPtr =>
    have hend := Opcode.flags_of_exit (.inr (.inl hk))
    have hglob := h.laKeep_bbEnd hend.1 hend.2.2
    exact ⟨by simp [hglob], by rw [hargs], hglob, h.world⟩
  | gotoTb =>
    have hend := Opcode.flags_of_exit (.inr (.inr hk))
    have hglob := h.laKeep_bbEnd hend.1 hend.2.2
    simp only [h.world, hglob]
    split
    · exact ⟨rfl, rfl, hglob, h.world⟩
    · exact ⟨rfl, h.laKeep_fade_bbExit hk s⟩
  | call => exact alike_callHelper hk h
  | guest => exact alike_accessGuest hk h
  | load =>
    have hend := (Opcode.flags_of_plain (.inr (.inl hk))).1
    simp only [hargs, h.world]
    exact ⟨rfl, h.laKeep_set hend _⟩
  | store =>
    have hend := (Opcode.flags_of_plain (.inr (.inr (.inl hk)))).1
    have hset := h.laKeep_set hend []
    rw [hwf.outs_eq_nil (.inr hk)] at hset
    simp only [hargs, h.world]
    exact ⟨rfl, hset.withWorld _⟩
  | compute =>
    have hend := (Opcode.flags_of_plain (.inl hk)).1
    simp only [hargs]
    exact ⟨rfl, h.laKeep_set hend _⟩

end Keep

section Select

variable {H : HasMulh} {s : LaState} {σ σ' : State Val World} {junk : ℕ → Temp → Val} {op op' : Op}

theorem not_needs {t : Temp} (h : (s t).unneeded = true) : ¬ s.Needs t := by
  simp [LaState.Needs, h]

theorem setOuts_of_notMem {outs : List Temp} {t : Temp} (h : t ∉ outs) (vals : List Val)
    (τ : Temp → Val) : setOuts outs vals τ t = τ t := by
  induction outs generalizing vals τ with
  | nil => rfl
  | cons o outs ih =>
    rw [List.mem_cons, not_or] at h
    rw [setOuts, ih h.2, Function.update_of_ne h.1]

theorem agrees_set_unneeded {outs : List Temp} (h : outs.all (fun t => (s t).unneeded) = true)
    (σ : State Val World) (vals : List Val) : Agrees M s (σ.set outs vals) σ := by
  refine ⟨fun t ht => ?_, rfl, rfl⟩
  have hout : t ∉ outs := fun hmem => not_needs (List.all_eq_true.mp h t hmem) ht
  simp only [State.set, setOuts_of_notMem hout]

theorem agrees_set_low {lo hi : Temp} {vals vals' : List Val} (h : (s hi).unneeded = true)
    (hlow : vals.headD default = vals'.headD default) (σ : State Val World) :
    Agrees M s (σ.set [lo, hi] vals) (σ.set [lo] vals') := by
  refine ⟨fun t ht => ?_, rfl, rfl⟩
  have hne : t ≠ hi := by
    rintro rfl
    exact not_needs h ht
  simp only [State.set, setOuts, Function.update_of_ne hne, hlow]

theorem agrees_set_high {lo hi : Temp} {vals vals' : List Val} (h : (s lo).unneeded = true)
    (hhigh : vals.tail.headD default = vals'.headD default) (σ : State Val World) :
    Agrees M s (σ.set [lo, hi] vals) (σ.set [hi] vals') := by
  refine ⟨fun t ht => ?_, rfl, rfl⟩
  have hne : t ≠ lo := by
    rintro rfl
    exact not_needs h ht
  by_cases hhi : t = hi
  · subst hhi
    simp only [State.set, setOuts, Function.update_self, hhigh]
  · simp only [State.set, setOuts, Function.update_of_ne hhi, Function.update_of_ne hne]

theorem laAddsub2_some {new : Opcode} (h : laAddsub2 s new op = some op') :
    op' = op ∨ ∃ d a b, op' = ⟨new, [d], [a, b], op.consts⟩ := by
  unfold laAddsub2 at h
  split at h
  · split at h
    · split at h
      · cases h
      · exact .inr ⟨_, _, _, (Option.some.inj h).symm⟩
    · exact .inl (Option.some.inj h).symm
  · exact .inl (Option.some.inj h).symm

theorem laMul2_some {new new2 : Opcode} {have2 : Bool} (h : laMul2 s new new2 have2 op = some op') :
    op' = op ∨ (∃ d a b, op' = ⟨new, [d], [a, b], op.consts⟩) ∨
      ∃ d a b, op' = ⟨new2, [d], [a, b], op.consts⟩ := by
  unfold laMul2 at h
  split at h
  · split at h
    · split at h
      · cases h
      · exact .inr (.inl ⟨_, _, _, (Option.some.inj h).symm⟩)
    · split at h
      · exact .inr (.inr ⟨_, _, _, (Option.some.inj h).symm⟩)
      · exact .inl (Option.some.inj h).symm
  · exact .inl (Option.some.inj h).symm

/-- An op that is not removed is kept, or narrowed to a single-word one. -/
theorem laSelect_some (h : laSelect H s op = some op') :
    op' = op ∨ ∃ o w d a b cs, op' = ⟨.bin o w, [d], [a, b], cs⟩ := by
  unfold laSelect at h
  split at h
  · split at h
    · cases h
    · exact .inl (Option.some.inj h).symm
  · exact (laAddsub2_some h).imp_right fun ⟨d, a, b, hop⟩ => ⟨_, _, d, a, b, _, hop⟩
  · exact (laAddsub2_some h).imp_right fun ⟨d, a, b, hop⟩ => ⟨_, _, d, a, b, _, hop⟩
  · rcases laMul2_some h with hop | ⟨d, a, b, hop⟩ | ⟨d, a, b, hop⟩
    · exact .inl hop
    · exact .inr ⟨_, _, d, a, b, _, hop⟩
    · exact .inr ⟨_, _, d, a, b, _, hop⟩
  · rcases laMul2_some h with hop | ⟨d, a, b, hop⟩ | ⟨d, a, b, hop⟩
    · exact .inl hop
    · exact .inr ⟨_, _, d, a, b, _, hop⟩
    · exact .inr ⟨_, _, d, a, b, _, hop⟩
  · split at h
    · cases h
    · exact .inl (Option.some.inj h).symm

theorem laSelect_wellFormed (hwf : op.WellFormed) (h : laSelect H s op = some op') : op'.WellFormed := by
  rcases laSelect_some h with rfl | ⟨o, w, d, a, b, cs, rfl⟩
  · exact hwf
  · exact ⟨fun _ => rfl, fun _ => rfl, by simp⟩

theorem laSelect_kind (hd : op.opc.kind ≠ .discard) (h : laSelect H s op = some op') :
    op'.opc.kind ≠ .discard := by
  rcases laSelect_some h with rfl | ⟨o, w, d, a, b, cs, rfl⟩
  · exact hd
  · simp [Opcode.kind]

def Replaces (M : Meaning T Val World) (junk : ℕ → Temp → Val) (s : LaState) (op op' : Op) : Prop :=
  ∀ σ, Alike M s (M.step (destroyed T junk) op σ) (M.step (destroyed T junk) op' σ)

def Dropped (M : Meaning T Val World) (junk : ℕ → Temp → Val) (s : LaState) (op : Op) : Prop :=
  ∀ σ, ∃ evs σ', M.step (destroyed T junk) op σ = (evs, .on σ') ∧ evs.filter Event.observed = [] ∧
    Agrees M s σ' σ

theorem NextAgrees.refl (next : Next Val World) : NextAgrees M s next next := by
  cases next with
  | on σ => exact Agrees.refl σ
  | jump l σ => exact ⟨rfl, Agrees.refl σ⟩
  | leave how σ => exact ⟨rfl, rfl, rfl⟩

theorem Replaces.self : Replaces M junk s op op := fun _ => ⟨rfl, NextAgrees.refl _⟩

theorem Replaces.of_compute (hk : op.opc.kind = .compute) (hk' : op'.opc.kind = .compute)
    (h : ∀ σ : State Val World, Agrees M s (σ.set op.outs (M.compute op.opc op.consts (M.args σ op.ins)))
      (σ.set op'.outs (M.compute op'.opc op'.consts (M.args σ op'.ins)))) :
    Replaces M junk s op op' := by
  intro σ
  simp only [Meaning.step, hk, hk']
  exact ⟨rfl, h σ⟩

theorem dropped_of_plain (hk : op.opc.kind = .compute ∨ op.opc.kind = .load)
    (h : op.outs.all (fun t => (s t).unneeded) = true) : Dropped M junk s op := by
  intro σ
  rcases hk with hk | hk
  · exact ⟨_, _, by simp only [Meaning.step, hk]; rfl, rfl, agrees_set_unneeded h σ _⟩
  · exact ⟨_, _, by simp only [Meaning.step, hk]; rfl, rfl, agrees_set_unneeded h σ _⟩

theorem dropped_call (hk : op.opc.kind = .call) (hflags : noSideEffects (callFlags op.consts) = true)
    (h : op.outs.all (fun t => (s t).unneeded) = true) : Dropped M junk s op := by
  intro σ
  obtain ⟨r, hhelper⟩ :=
    M.noEffect op.consts (callFlags op.consts) (M.args σ op.ins) (M.globals σ) σ.world hflags
  refine ⟨_, _, by simp only [Meaning.step, hk]; exact Meaning.callHelper_of_ok hhelper, ?_, ?_⟩
  · simp [Event.observed, hflags]
  · exact (agrees_set_unneeded h _ r).trans (agrees_setGlobals_globals σ σ.world)

section Wide

variable {new new2 : Opcode} {have2 : Bool}

def Chosen (M : Meaning T Val World) (junk : ℕ → Temp → Val) (s : LaState) (op : Op) : Option Op → Prop
  | none => Dropped M junk s op
  | some op' => Replaces M junk s op op'

theorem chosen_laAddsub2 {o : BinOp} {w : Ty} (hk : op.opc.kind = .compute)
    (hlow : ∀ a b c d, (M.compute op.opc op.consts [a, b, c, d]).headD default =
      (M.compute (.bin o w) op.consts [a, c]).headD default) :
    Chosen M junk s op (laAddsub2 s (.bin o w) op) := by
  have hself : Replaces M junk s op op := .self
  unfold laAddsub2
  split
  · next al ah bl bh cl ch houts hins =>
    split
    · next hah =>
      split
      · next hal => exact dropped_of_plain (.inl hk) (by simp [houts, hal, hah])
      · refine .of_compute hk rfl fun σ => ?_
        rw [houts, hins]
        exact agrees_set_low hah (hlow ..) σ
    · exact hself
  · exact hself

theorem chosen_laMul2 {o : BinOp} {w : Ty} (hk : op.opc.kind = .compute)
    (hlow : ∀ a b, (M.compute op.opc op.consts [a, b]).headD default =
      (M.compute (.bin .mul w) op.consts [a, b]).headD default)
    (hhigh : ∀ a b, (M.compute op.opc op.consts [a, b]).tail.headD default =
      (M.compute (.bin o w) op.consts [a, b]).headD default) :
    Chosen M junk s op (laMul2 s (.bin .mul w) (.bin o w) have2 op) := by
  have hself : Replaces M junk s op op := .self
  unfold laMul2
  split
  · next lo hi a b houts hins =>
    split
    · next hhi =>
      split
      · next hlo => exact dropped_of_plain (.inl hk) (by simp [houts, hlo, hhi])
      · refine .of_compute hk rfl fun σ => ?_
        rw [houts, hins]
        exact agrees_set_low hhi (hlow ..) σ
    · split
      · next hlo =>
        refine .of_compute hk rfl fun σ => ?_
        rw [houts, hins]
        exact agrees_set_high (by simpa using (Bool.and_eq_true_iff.mp hlo).1) (hhigh ..) σ
      · exact hself
  · exact hself

end Wide

theorem chosen_laSelect (hd : op.opc.kind ≠ .discard) : Chosen M junk s op (laSelect H s op) := by
  unfold laSelect
  split
  · next hopc =>
    split
    · next hdrop =>
      rw [Bool.and_eq_true] at hdrop
      exact dropped_call (by rw [hopc]; rfl) hdrop.1 hdrop.2
    · exact .self
  · next w hopc => exact chosen_laAddsub2 (by rw [hopc]; rfl) (by rw [hopc]; exact M.add2_low w _)
  · next w hopc => exact chosen_laAddsub2 (by rw [hopc]; rfl) (by rw [hopc]; exact M.sub2_low w _)
  · next w hopc =>
    exact chosen_laMul2 (by rw [hopc]; rfl) (by rw [hopc]; exact M.mulu2_low w _)
      (by rw [hopc]; exact M.mulu2_high w _)
  · next w hopc =>
    exact chosen_laMul2 (by rw [hopc]; rfl) (by rw [hopc]; exact M.muls2_low w _)
      (by rw [hopc]; exact M.muls2_high w _)
  · split
    · next hdrop =>
      rw [Bool.and_eq_true, Bool.and_eq_true] at hdrop
      refine dropped_of_plain ?_ hdrop.2
      cases hopc : op.opc <;> simp_all [Opcode.kind, Opcode.sideEffects, Opcode.nbOargs]
    · exact .self

theorem NextAgrees.trans {n n' n'' : Next Val World} (h : NextAgrees M s n n') (h' : NextAgrees M s n' n'') :
    NextAgrees M s n n'' := by
  cases n <;> cases n' <;> cases n'' <;> simp only [NextAgrees] at h h' ⊢
  · exact h.trans h'
  · exact ⟨h.1.trans h'.1, h.2.trans h'.2⟩
  · exact ⟨h.1.trans h'.1, h.2.1.trans h'.2.1, h.2.2.trans h'.2.2⟩

theorem Alike.trans {r r' r'' : List (Event T Val) × Next Val World} (h : Alike M s r r')
    (h' : Alike M s r' r'') : Alike M s r r'' := ⟨h.1.trans h'.1, h.2.trans h'.2⟩

theorem kind_ne_discard (h : op.opc ≠ .discard) : op.opc.kind ≠ .discard := by
  cases hopc : op.opc <;> simp_all [Opcode.kind]

theorem laOp_some {mop : MarkedOp} {s' : LaState} (hwf : op.WellFormed)
    (hla : laOp T H op s = (some mop, s')) (h : Agrees M s' σ σ') :
    Alike M s (M.step (destroyed T junk) op σ) (M.step (destroyed T junk) mop.op σ') := by
  unfold laOp at hla
  split at hla
  · next hopc =>
    obtain ⟨hmop, rfl⟩ := Prod.mk.inj hla
    cases hmop
    have hk : op.opc.kind = .nop := by rw [hopc]; rfl
    simp only [Meaning.step, hk]
    exact ⟨rfl, h⟩
  · next hopc =>
    obtain ⟨hmop, rfl⟩ := Prod.mk.inj hla
    cases hmop
    have hk : op.opc.kind = .discard := by rw [hopc]; rfl
    simp only [Meaning.step, hk]
    refine ⟨rfl, h.fade fun t hkeep ht => ?_⟩
    have hne : t ≠ op.out0 := by simpa [Ending.keeps] using hkeep
    rw [LaState.Needs, Function.update_of_ne hne]
    exact ht
  · next hdis =>
    have hd := kind_ne_discard hdis
    split at hla
    · cases hla
    · next op' hsel =>
      have hchosen : Chosen M junk s op (laSelect H s op) := chosen_laSelect hd
      rw [hsel] at hchosen
      obtain ⟨hmop, rfl⟩ := Prod.mk.inj hla
      cases hmop
      exact (hchosen σ).trans (alike_step (laSelect_wellFormed hwf hsel) (laSelect_kind hd hsel) h)

theorem laOp_none {s' : LaState} (hla : laOp T H op s = (none, s')) : s' = s ∧ Dropped M junk s op := by
  unfold laOp at hla
  split at hla
  · cases hla
  · cases hla
  · next hdis =>
    have hchosen : Chosen M junk s op (laSelect H s op) := chosen_laSelect (kind_ne_discard hdis)
    split at hla
    · next hsel =>
      rw [hsel] at hchosen
      exact ⟨(Prod.mk.inj hla).2.symm, hchosen⟩
    · cases hla

end Select

end Tcg

end Iqemu64
