import Iqemu64.LivenessSim
import Iqemu64.TcgInt

/-!
# Liveness pruning preserves meaning

The walk of the pass over a whole list: the list and what is left of it take the same jumps and show
the same, and the dead marks are right for the list that is left.
-/

namespace Iqemu64
open List Prod

namespace Tcg

variable {T : TempTable} {Val World : Type} [Inhabited Val] {M : Meaning T Val World}

section Runs

variable {H : HasMulh} {σ σ' : State Val World} {junk : ℕ → Temp → Val}

def pruned (T : TempTable) (H : HasMulh) (ops : List Op) : List Op :=
  (livenessPass1 T H ops).map MarkedOp.op

variable {ops : List Op} {mop : MarkedOp} {s' : LaState}

theorem pruned_cons_some {op : Op}
    (h : laOp T H op (laWalk T H ops).2 = (some mop, s')) :
    pruned T H (op :: ops) = mop.op :: pruned T H ops ∧ (laWalk T H (op :: ops)).2 = s' := by
  simp [pruned, livenessPass1, laWalk, h]

theorem pruned_cons_none {op : Op}
    (h : laOp T H op (laWalk T H ops).2 = (none, s')) :
    pruned T H (op :: ops) = pruned T H ops ∧ (laWalk T H (op :: ops)).2 = s' := by
  simp [pruned, livenessPass1, laWalk, h]

theorem alike_seq (hwf : ∀ op ∈ ops, op.WellFormed)
    (h : Agrees M (laWalk T H ops).2 σ σ') :
    Alike M allNeeded (M.seq (destroyed T junk) ops σ) (M.seq (destroyed T junk) (pruned T H ops) σ') := by
  induction ops generalizing σ σ' with
  | nil =>
    refine ⟨rfl, rfl, h.globals fun t ht => needs_laFuncEnd ht, h.world⟩
  | cons op ops ih =>
    rw [forall_mem_cons] at hwf
    rcases hla : laOp T H op (laWalk T H ops).2 with ⟨_ | mop, s'⟩
    · obtain ⟨hops, hs'⟩ := pruned_cons_none hla
      obtain ⟨rfl, hdrop⟩ : s' = (laWalk T H ops).2 ∧ Dropped M junk (laWalk T H ops).2 op :=
        laOp_none hla
      rw [hs'] at h
      obtain ⟨evs, σ₁, hstep, hevs, hagree⟩ := hdrop σ
      rw [hops, Meaning.seq, hstep]
      have hrest := ih hwf.2 (hagree.trans h)
      exact ⟨by simp only [filter_append, hevs, nil_append]; exact hrest.1, hrest.2⟩
    · obtain ⟨hops, hs'⟩ := pruned_cons_some hla
      rw [hs'] at h
      obtain ⟨hevs, hnext⟩ : Alike M (laWalk T H ops).2 (M.step (destroyed T junk) op σ)
          (M.step (destroyed T junk) mop.op σ') := laOp_some hwf.1 hla h
      rw [hops, Meaning.seq, Meaning.seq]
      rcases hstep : M.step (destroyed T junk) op σ with ⟨evs, next⟩
      rcases hstep' : M.step (destroyed T junk) mop.op σ' with ⟨evs', next'⟩
      rw [hstep, hstep'] at hevs hnext
      cases next <;> cases next' <;> simp only [NextAgrees] at hnext
      · have hrest := ih hwf.2 hnext
        refine ⟨?_, hrest.2⟩
        simp only [filter_append]
        rw [hrest.1, show evs.filter Event.observed = evs'.filter Event.observed from hevs]
      · exact ⟨hevs, hnext⟩
      · exact ⟨hevs, hnext⟩

theorem laOp_op {op : Op} {s : LaState} (h : laOp T H op s = (some mop, s')) :
    mop.op = op ∨ ∃ o w d a b cs, mop.op = ⟨.bin o w, [d], [a, b], cs⟩ := by
  unfold laOp at h
  split at h
  · exact .inl (Option.some.inj (mk.inj h).1 ▸ rfl)
  · exact .inl (Option.some.inj (mk.inj h).1 ▸ rfl)
  · split at h
    · cases h
    · next op' hsel =>
      have hop : mop.op = op' := Option.some.inj (mk.inj h).1 ▸ rfl
      rw [hop]
      exact laSelect_some hsel

variable {l : Label}

theorem opc_of_defines {op : Op} (h : op.defines l = true) : op.opc = .setLabel := by
  simp only [Op.defines, Bool.and_eq_true, beq_iff_eq] at h
  exact h.1

theorem laOp_of_defines {op : Op} (h : op.defines l = true) (s : LaState) :
    ∃ mop s', laOp T H op s = (some mop, s') ∧ mop.op = op := by
  have hopc := opc_of_defines h
  have hsel : laSelect H s op = some op := by simp [laSelect, hopc, Opcode.sideEffects, Opcode.nbOargs]
  exact ⟨_, _, by simp only [laOp, hopc, hsel]; rfl, rfl⟩

theorem laOp_not_defines {op : Op} {s : LaState}
    (h : op.defines l = false) (hla : laOp T H op s = (some mop, s')) : mop.op.defines l = false := by
  rcases laOp_op hla with hop | ⟨o, w, d, a, b, cs, hop⟩
  · rw [hop, h]
  · simp [Op.defines, hop]

theorem fromLabel_pruned (l : Label) (ops : List Op) :
    fromLabel l (pruned T H ops) = (fromLabel l ops).map (pruned T H) := by
  induction ops with
  | nil => rfl
  | cons op ops ih =>
    cases hdef : op.defines l with
    | true =>
      obtain ⟨mop, s', hla, hop⟩ := laOp_of_defines (T := T) (H := H) hdef (laWalk T H ops).2
      rw [(pruned_cons_some hla).1, hop]
      simp only [fromLabel, hdef, if_true, Option.map_some]
      rw [(pruned_cons_some hla).1, hop]
    | false =>
      rcases hla : laOp T H op (laWalk T H ops).2 with ⟨_ | mop, s'⟩
      · rw [(pruned_cons_none hla).1, ih]
        simp [fromLabel, hdef]
      · rw [(pruned_cons_some hla).1, fromLabel, laOp_not_defines hdef hla]
        simp [fromLabel, hdef, ih]

theorem mem_of_fromLabel {ops' : List Op} (h : fromLabel l ops = some ops') :
    ∀ op ∈ ops', op ∈ ops := by
  induction ops with
  | nil => cases h
  | cons o ops ih =>
    rw [fromLabel] at h
    split at h
    · cases h
      exact fun _ hop => hop
    · exact fun op hop => mem_cons_of_mem o (ih h op hop)

def observed (r : List (Event T Val) × Meaning.Final T Val World) :
    List (Event T Val) × Meaning.Final T Val World := (r.1.filter Event.observed, r.2)

theorem Agrees.of_allNeeded {s : LaState} (h : Agrees M allNeeded σ σ') : Agrees M s σ σ' :=
  ⟨fun t _ => h.temps t rfl, h.world, h.endings⟩

theorem final_congr {how : Leave Val} (hg : M.globals σ = M.globals σ') (hw : σ.world = σ'.world) :
    M.final how σ = M.final how σ' := by rw [Meaning.final, Meaning.final, hg, hw]

/-- Two lists that run alike up to the first jump run alike if they do so after it. -/
theorem observed_afterSeq {goto goto' : Label → State Val World → List (Event T Val) × Meaning.Final T Val World}
    {r r' : List (Event T Val) × Next Val World} (h : Alike M allNeeded r r')
    (hgoto : ∀ l σ σ', Agrees M allNeeded σ σ' → observed (goto' l σ') = observed (goto l σ)) :
    observed (M.afterSeq goto' r') = observed (M.afterSeq goto r) := by
  obtain ⟨evs, next⟩ := r
  obtain ⟨evs', next'⟩ := r'
  obtain ⟨hevs, hnext⟩ := h
  cases next <;> cases next' <;> simp only [NextAgrees] at hnext
  · have hg := hnext.globals fun _ _ => rfl
    exact Prod.ext hevs.symm (final_congr hg hnext.world).symm
  · next l τ l' τ' =>
    obtain ⟨rfl, hagree⟩ := hnext
    have hrest := hgoto l τ τ' hagree
    simp only [observed, Meaning.afterSeq, filter_append, mk.injEq] at hrest ⊢
    rw [hrest.1, hrest.2]
    exact ⟨by rw [show evs.filter Event.observed = evs'.filter Event.observed from hevs], rfl⟩
  · obtain ⟨rfl, hg, hw⟩ := hnext
    exact Prod.ext hevs.symm (final_congr hg hw).symm

theorem observed_run {prog : List Op} (hprog : ∀ op ∈ prog, op.WellFormed) (fuel : ℕ)
    (hwf : ∀ op ∈ ops, op.WellFormed) (h : Agrees M (laWalk T H ops).2 σ σ') :
    observed (M.run (destroyed T junk) (pruned T H prog) fuel (pruned T H ops) σ') =
      observed (M.run (destroyed T junk) prog fuel ops σ) := by
  induction fuel generalizing ops σ σ' with
  | zero =>
    refine observed_afterSeq (alike_seq hwf h) fun l τ τ' hτ => ?_
    rw [final_congr (hτ.globals fun _ _ => rfl) hτ.world]
  | succ fuel ih =>
    refine observed_afterSeq (alike_seq hwf h) fun l τ τ' hτ => ?_
    rw [fromLabel_pruned]
    cases hlabel : fromLabel l prog with
    | none =>
      rw [Option.map_none]
      simp only [final_congr (hτ.globals fun _ _ => rfl) hτ.world]
    | some ops' => exact ih (fun op hop => hprog op (mem_of_fromLabel hlabel op hop)) hτ.of_allNeeded

end Runs

section Marks

variable {T : TempTable} {H : HasMulh} {s : LaState} {t : Temp} {op : Op}

def Op.Renews (T : TempTable) (t : Temp) (op : Op) : Prop :=
  t ∈ op.outs ∨ op.opc.bbEnd = true ∨
    op.opc = .call ∧ noWriteGlobals (callFlags op.consts) = false ∧
      noReadGlobals (callFlags op.consts) = false ∧ T.isGlobal t = true

def Unread (T : TempTable) (t : Temp) : List Op → Prop
  | [] => True
  | op :: ops => t ∉ op.ins ∧ (op.Renews T t ∨ Unread T t ops)

/-- The marks of an op are right for the ops after it: an output marked dead is not read before it is
renewed, nor is an input marked dead unless the op itself renews it. -/
structure MarkedOp.DeadMarks (T : TempTable) (mop : MarkedOp) (ops : List Op) : Prop where
  outs : ∀ t b, (t, b) ∈ mop.op.outs.zip mop.life.deadOuts → b = true → Unread T t ops
  ins : ∀ t b, (t, b) ∈ mop.op.ins.zip mop.life.deadIns → b = true →
    mop.op.Renews T t ∨ Unread T t ops

def DeadMarksSound (T : TempTable) : List MarkedOp → Prop
  | [] => True
  | mop :: mops => mop.DeadMarks T (mops.map MarkedOp.op) ∧ DeadMarksSound T mops

/-- A temp that is dead after the effect of an op was renewed by it or was dead already. -/
theorem dead_laEffect (h : (laEffect T op s t).dead = true) : op.Renews T t ∨ (s t).dead = true := by
  unfold laEffect at h
  split at h
  · next hcall =>
    split at h
    · next hflags =>
      by_cases hglob : T.isGlobal t = true
      · exact .inl (.inr (.inr ⟨hcall, by simpa [hglob] using hflags⟩))
      · simp only [laGlobalKill, hglob] at h
        exact .inr h
    · split at h
      · refine .inr ?_
        unfold laGlobalSync at h
        split at h <;> exact h
      · exact .inr h
  · split at h
    · next hexit =>
      refine .inl (.inr (.inl ?_))
      by_contra hend
      rw [Opcode.bbExit_eq_false (by simpa using hend)] at hexit
      cases hexit
    · split at h
      · next hend => exact .inl (.inr (.inl hend))
      · split at h
        · refine .inr ?_
          unfold laGlobalSync at h
          split at h <;> exact h
        · exact .inr h

theorem dead_laOutputs (h : ((laOutputs op.outs s).2.2 t).dead = true) :
    op.Renews T t ∨ (s t).dead = true := by
  rw [laOutputs_state] at h
  split at h
  · next hout => exact .inl (.inl hout)
  · exact .inr h

theorem dead_laKeep (h : ((laKeep T op s).2 t).dead = true) :
    t ∉ op.ins ∧ (op.Renews T t ∨ (s t).dead = true) := by
  simp only [laKeep, laInputs] at h
  split at h
  · simp at h
  · next hin => exact ⟨hin, (dead_laEffect h).elim .inl dead_laOutputs⟩

theorem mem_zip_laOutputs {outs : List Temp} (hnodup : outs.Nodup) {b : Bool}
    (h : (t, b) ∈ outs.zip (laOutputs outs s).2.1) : b = (s t).dead := by
  induction outs generalizing s with
  | nil => simp at h
  | cons o outs ih =>
    rw [nodup_cons] at hnodup
    simp only [laOutputs, zip_cons_cons, mem_cons, mk.injEq] at h
    rcases h with ⟨rfl, rfl⟩ | h
    · rfl
    · have hne : t ≠ o := fun heq => hnodup.1 (heq ▸ (of_mem_zip h).1)
      rw [ih hnodup.2 h, Function.update_of_ne hne]

variable {ops : List Op}

theorem deadMarks_laKeep (hnodup : op.outs.Nodup)
    (hdead : ∀ t, (s t).dead = true → Unread T t ops) : (laKeep T op s).1.DeadMarks T ops := by
  refine ⟨fun t b hmem hb => hdead t ?_, fun t b hmem hb => ?_⟩
  · rw [← mem_zip_laOutputs hnodup hmem, hb]
  · simp only [laKeep] at hmem
    rw [← map_prod_left_eq_zip, mem_map] at hmem
    obtain ⟨x, -, hx⟩ := hmem
    obtain ⟨rfl, rfl⟩ := mk.inj hx
    exact (dead_laEffect hb).elim .inl fun h => (dead_laOutputs h).imp_right (hdead x)

theorem deadMarks_none (ops : List Op) : (⟨op, ⟨[], [], []⟩⟩ : MarkedOp).DeadMarks T ops :=
  ⟨fun _ _ h => by simp at h, fun _ _ h => by simp at h⟩

theorem laOp_state_of_none {s' : LaState} (hla : laOp T H op s = (none, s')) : s' = s := by
  unfold laOp at hla
  split at hla
  · cases hla
  · cases hla
  · split at hla
    · exact (mk.inj hla).2.symm
    · cases hla

/-- The marks of one op of the walk, and what is dead before it. -/
theorem deadMarks_laOp {mop : MarkedOp} {s' : LaState} (hwf : op.WellFormed)
    (hla : laOp T H op s = (some mop, s')) (hdead : ∀ t, (s t).dead = true → Unread T t ops) :
    mop.DeadMarks T ops ∧ ∀ t, (s' t).dead = true → Unread T t (mop.op :: ops) := by
  unfold laOp at hla
  split at hla
  · next hopc =>
    obtain ⟨hmop, rfl⟩ := mk.inj hla
    cases hmop
    have hins : op.ins = [] := eq_nil_of_length_eq_zero (by rw [hwf.ins_length (by simp [hopc]), hopc]; rfl)
    exact ⟨deadMarks_none ops, fun t ht => ⟨by simp [hins], .inr (hdead t ht)⟩⟩
  · next hopc =>
    obtain ⟨hmop, rfl⟩ := mk.inj hla
    cases hmop
    have hins : op.ins = [] := eq_nil_of_length_eq_zero (by rw [hwf.ins_length (by simp [hopc]), hopc]; rfl)
    obtain ⟨o, houts⟩ := length_eq_one_iff.mp (by rw [hwf.outs_length (by simp [hopc]), hopc]; rfl)
    refine ⟨deadMarks_none ops, fun t ht => ⟨by simp [hins], ?_⟩⟩
    by_cases hto : t = op.out0
    · exact .inl (.inl (by simp [hto, Op.out0, houts]))
    · rw [Function.update_of_ne hto] at ht
      exact .inr (hdead t ht)
  · split at hla
    · cases hla
    · next op' hsel =>
      obtain ⟨hmop, rfl⟩ := mk.inj hla
      cases hmop
      have hnodup := (laSelect_wellFormed hwf hsel).outs_nodup
      refine ⟨deadMarks_laKeep hnodup hdead, fun t ht => ?_⟩
      exact (dead_laKeep ht).imp_right fun h => h.imp_right (hdead t)

theorem deadMarks_laWalk (hwf : ∀ op ∈ ops, op.WellFormed) :
    DeadMarksSound T (livenessPass1 T H ops) ∧
      ∀ t, ((laWalk T H ops).2 t).dead = true → Unread T t (pruned T H ops) := by
  induction ops with
  | nil => exact ⟨trivial, fun _ _ => trivial⟩
  | cons op ops ih =>
    rw [forall_mem_cons] at hwf
    obtain ⟨hmarks, hdead⟩ := ih hwf.2
    rcases hla : laOp T H op (laWalk T H ops).2 with ⟨_ | mop, s'⟩
    · have hpass : livenessPass1 T H (op :: ops) = livenessPass1 T H ops := by
        simp [livenessPass1, laWalk, hla]
      obtain ⟨hops, hs'⟩ := pruned_cons_none hla
      rw [hpass, hops, hs', (laOp_state_of_none hla)]
      exact ⟨hmarks, hdead⟩
    · obtain ⟨hops, hs'⟩ := pruned_cons_some hla
      obtain ⟨hmop, hbefore⟩ := deadMarks_laOp hwf.1 hla hdead
      rw [hops, hs']
      refine ⟨?_, hbefore⟩
      have hpass : livenessPass1 T H (op :: ops) = mop :: livenessPass1 T H ops := by
        simp [livenessPass1, laWalk, hla]
      rw [hpass]
      exact ⟨hmop, hmarks⟩

end Marks

/-- For every list of well-formed ops, any meaning of them with helpers that keep to their call flags,
and any content found in temps whose value is lost: the pruned list shows the same accesses to guest
memory, stores, side-effecting calls and block ends with the same globals, takes the same jumps and
ends in the same way; and no op reads an argument marked dead before it is renewed. -/
theorem livenessPass1_preserves (M : Meaning T Val World) (H : HasMulh) (junk : ℕ → Temp → Val)
    (prog : List Op) (hwf : ∀ op ∈ prog, op.WellFormed) (fuel : ℕ) (σ : State Val World) :
    observed (M.run (destroyed T junk) (pruned T H prog) fuel (pruned T H prog) σ) =
      observed (M.run (destroyed T junk) prog fuel prog σ) ∧
    DeadMarksSound T (livenessPass1 T H prog) :=
  ⟨observed_run hwf fuel hwf (Agrees.refl σ), (deadMarks_laWalk hwf).1⟩

def threeTemps : TempTable := ⟨2, fun t => t == 2⟩

def idleEnv : Env threeTemps Unit where
  hostRead _ _ _ := 0
  hostWrite world _ _ _ := world
  guestRead world _ _ := .error world
  guestWrite world _ _ _ := .error world
  linked _ _ := false
  helper _ _ _ g world := .ok ([], g, world)
  noRead _ _ _ world _ := ⟨[], world, fun _ => rfl⟩
  noWrite _ _ _ _ _ _ _ _ _ h := (congrArg (fun r => r.2.1) (Except.ok.inj h)).symm
  noEffect _ _ _ _ _ _ := ⟨[], rfl⟩

def acrossLabel : List Op :=
  [⟨.movi .i64, [0], [], [.num 5]⟩, ⟨.setLabel, [], [], [.label 1]⟩, ⟨.mov .i64, [1], [0], []⟩,
    ⟨.exitTb, [], [], [.num 0]⟩]

theorem acrossLabel_wellFormed : ∀ op ∈ acrossLabel, op.WellFormed := by
  simp only [acrossLabel, forall_mem_cons]
  refine ⟨?_, ?_, ?_, ?_, by simp⟩ <;> exact ⟨fun _ => rfl, fun _ => rfl, by simp⟩

theorem livenessPass1_preserves_acrossLabel :
    (∀ op ∈ acrossLabel, op.WellFormed) ∧
    DeadMarksSound threeTemps (livenessPass1 threeTemps ⟨fun _ => false, fun _ => false⟩ acrossLabel) := by
  refine ⟨acrossLabel_wellFormed, ?_⟩
  exact (livenessPass1_preserves (intMeaning (fun _ => .i64) idleEnv) ⟨fun _ => false, fun _ => false⟩
    (fun _ _ => 0) acrossLabel acrossLabel_wellFormed 9 ⟨fun _ => 0, (), 0⟩).2

def ReadBeforeWrite (t : Temp) : List Op → Prop
  | [] => False
  | op :: ops => t ∈ op.ins ∨ t ∉ op.outs ∧ ReadBeforeWrite t ops

/-- The output of the first op is marked dead, as the label has it in memory, and is read after the
label before it is written again. -/
theorem livenessPass1_dead_global :
    ∃ mop mops, livenessPass1 threeTemps ⟨fun _ => false, fun _ => false⟩ acrossLabel = mop :: mops ∧
      mop.op.outs = [0] ∧ mop.life.deadOuts = [true] ∧ ReadBeforeWrite 0 (mops.map MarkedOp.op) := by
  refine ⟨⟨⟨.movi .i64, [0], [], [.num 5]⟩, ⟨[true], [true], []⟩⟩, _, rfl, rfl, rfl, ?_⟩
  exact .inr ⟨not_mem_nil, .inl (mem_singleton_self 0)⟩

end Tcg

end Iqemu64
