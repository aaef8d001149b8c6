import Iqemu64.X64
import Iqemu64.MemMoves

/-!
# Memory-to-memory transfers

A transfer loads a word or sixteen bytes into a work register and stores it, or its lower half,
elsewhere. A list of transfers is a list of memory moves, and it runs to its end exactly when the wide
ones are aligned on both sides.
-/

namespace X64
open ByteMemory State

inductive Width where
  | half | word | wide
  deriving DecidableEq, Repr

def Width.bytes : Width → ℕ
  | half => 4
  | word => 8
  | wide => 16

structure Transfer where
  width : Width
  srcBase : Gpr
  src : ℕ
  dstBase : Gpr
  dst : ℕ

namespace Transfer

variable {F S : Type} (E : Externals F S) (t : Transfer)

def code : List (Insn F S) :=
  match t.width with
  | .half => [.ld .rax t.srcBase t.src, .st32 .rax t.dstBase t.dst]
  | .word => [.ld .rax t.srcBase t.src, .st .rax t.dstBase t.dst]
  | .wide => [.movapsLd 0 t.srcBase t.src, .movapsSt 0 t.dstBase t.dst]

def move (s : State) : Move where
  dst := s.ea t.dstBase t.dst
  src := s.ea t.srcBase t.src
  size := t.width.bytes

def Aligned (s : State) : Prop :=
  t.width = .wide → s.ea t.srcBase t.src % 16 = 0 ∧ s.ea t.dstBase t.dst % 16 = 0

def Based : Prop := t.srcBase ≠ .rax ∧ t.dstBase ≠ .rax

variable {t}

theorem run_code {s : State} (hb : t.Based) :
    (run E t.code s ≠ none ↔ t.Aligned s) ∧ ∀ s', run E t.code s = some s' →
      s'.mem = (t.move s).run s.mem ∧ ∀ r, r ≠ .rax → s'.gpr r = s.gpr r := by
  unfold Transfer.code Transfer.Aligned
  cases hw : t.width with
  | half =>
    simp only [run_cons, run_nil, Insn.step, Option.bind_some, ea, setGpr_gpr_same,
      setGpr_gpr_ne s _ hb.2, setGpr_mem]
    refine ⟨by simp, fun s' hs' => ?_⟩
    cases hs'
    refine ⟨?_, fun r hr => by simp [hr]⟩
    simp only [setMem_mem, Move.run, Transfer.move, hw, Width.bytes, ea]
    rw [toNat_ofNat_loadWord _ _ _ le_rfl, Mem.storeWord_loadWord_of_le _ _ _ (by norm_num)]
    rfl
  | word =>
    simp only [run_cons, run_nil, Insn.step, Option.bind_some, ea, setGpr_gpr_same,
      setGpr_gpr_ne s _ hb.2, setGpr_mem]
    refine ⟨by simp, fun s' hs' => ?_⟩
    cases hs'
    refine ⟨?_, fun r hr => by simp [hr]⟩
    simp only [setMem_mem, Move.run, Transfer.move, hw, Width.bytes, ea]
    rw [toNat_ofNat_loadWord _ _ _ le_rfl, Mem.storeWord_loadWord_of_le _ _ _ le_rfl]
    rfl
  | wide =>
    simp only [run_cons, run_nil, Insn.step, ea, true_imp_iff]
    by_cases hsrc : ((s.gpr t.srcBase).toNat + t.src) % 16 = 0
    · simp only [hsrc, if_true, Option.bind_some, run_cons, run_nil, Insn.step, ea,
        setXmm_gpr, setXmm_mem, true_and]
      by_cases hdst : ((s.gpr t.dstBase).toNat + t.dst) % 16 = 0
      · simp only [hdst, if_true, Option.bind_some]
        refine ⟨by simp, fun s' hs' => ?_⟩
        cases hs'
        refine ⟨?_, fun r _ => rfl⟩
        simp only [setMem_mem, setXmm_xmm, if_true, Move.run, Transfer.move, hw,
          Width.bytes, ea]
        rfl
      · simp [hdst]
    · simp [hsrc]

theorem move_congr {s s' : State} (hb : t.Based) (h : ∀ r, r ≠ .rax → s'.gpr r = s.gpr r) :
    t.move s' = t.move s := by
  simp only [Transfer.move, ea, h _ hb.1, h _ hb.2]

theorem aligned_congr {s s' : State} (hb : t.Based) (h : ∀ r, r ≠ .rax → s'.gpr r = s.gpr r) :
    t.Aligned s' ↔ t.Aligned s := by
  simp only [Transfer.Aligned, ea, h _ hb.1, h _ hb.2]

end Transfer

section Transfers
variable {F S : Type} (E : Externals F S)

theorem run_transfers {ts : List Transfer} (hb : ∀ t ∈ ts, t.Based) (s : State) :
    (run E (ts.flatMap Transfer.code) s ≠ none ↔ ∀ t ∈ ts, t.Aligned s) ∧
      ∀ s', run E (ts.flatMap Transfer.code) s = some s' →
        s'.mem = runMoves (ts.map fun t => t.move s) s.mem ∧ ∀ r, r ≠ .rax → s'.gpr r = s.gpr r := by
  induction ts generalizing s with
  | nil =>
    refine ⟨by simp, fun s' hs' => ?_⟩
    cases hs'
    exact ⟨rfl, fun _ _ => rfl⟩
  | cons t ts ih =>
    have ht := hb t List.mem_cons_self
    have hts : ∀ u ∈ ts, u.Based := fun u hu => hb u (List.mem_cons_of_mem t hu)
    obtain ⟨hok, hspec⟩ := Transfer.run_code E (s := s) ht
    rw [List.flatMap_cons, run_append, List.forall_mem_cons, ← hok]
    cases hs₁ : run E t.code s with
    | none => simp
    | some s₁ =>
      obtain ⟨hmem, hgpr⟩ := hspec s₁ hs₁
      obtain ⟨hok', hspec'⟩ := ih hts s₁
      rw [Option.bind_some, hok']
      refine ⟨?_, fun s' hs' => ?_⟩
      · simp only [ne_eq, reduceCtorEq, not_false_eq_true, true_and]
        exact forall₂_congr fun u hu => Transfer.aligned_congr (hts u hu) hgpr
      · obtain ⟨hmem', hgpr'⟩ := hspec' s' hs'
        refine ⟨?_, fun r hr => (hgpr' r hr).trans (hgpr r hr)⟩
        rw [hmem', List.map_cons, runMoves]
        congr 1
        exact List.map_congr_left fun u hu => Transfer.move_congr (hts u hu) hgpr

end Transfers

end X64
