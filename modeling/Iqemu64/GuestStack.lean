import Iqemu64.StackBalance
import Iqemu64.X2aCall
import Iqemu64.X2aExit

/-!
# The guest stack across a bridged call

The guest stack pointer is a word of the CPU state. The code before a guest call lowers it by the size
of the stack arguments, the code after it raises it again. Nothing else that the code stores reaches
that word, as long as the two stacks, the saved registers and the caller's buffer lie elsewhere.
-/

namespace Iqemu64
open ByteMemory X64 List Option BitVec ABIArgInfo State Mem

def SpCell (env b : ℕ) : Prop := env + spOffset ≤ b ∧ b < env + spOffset + 8

def RspCell (ctx b : ℕ) : Prop := ctx + ctxRspOffset ≤ b ∧ b < ctx + ctxRspOffset + 8

def AReg.number : AReg → ℕ
  | .s n | .d n | .q n | .w n | .x n => n

def XReg.vectorNumber : XReg → ℕ
  | .xmm n => n
  | _ => 0

/-- Two descriptions of one function, as far as stores depend on them: AArch64 registers up to number
eight, x86-64 vector registers up to number seven, at most four registers to an argument, and stack
arguments inside the guest's argument area. -/
structure PairPlaced (aaInfo : ABIFnInfo AReg) (xxInfo : ABIFnInfo XReg) : Prop where
  aaRegs : ∀ a ∈ aaInfo.ainfo, ∀ r ∈ a.regs, r.number ≤ 8
  aaSlots : ∀ a ∈ aaInfo.ainfo, a.teIsMem = true → a.teGetMem + a.stackExtent ≤ aaInfo.bytes
  aaRet : aaInfo.rinfo.teNumOfReg ≤ 4
  xxRegs : ∀ x ∈ xxInfo.ainfo, x.teNumOfReg ≤ 4
  xxVectors : ∀ x ∈ xxInfo.rinfo :: xxInfo.ainfo, ∀ r ∈ x.regs, r.vectorNumber < 8

section Pieces
variable {L : EnvLayout} {v : Gpr → BitVec 64} {P : ℕ → Prop}

def x2aBases : List Gpr := [.rdi, .rsi, .r10, .r11]

theorem rax_not_base : Gpr.rax ∉ x2aBases := by decide

theorem rdi_base : Gpr.rdi ∈ x2aBases := by decide

variable {a : ABIArgInfo AReg}

theorem spCell_not_reg (ha : ∀ r ∈ a.regs, r.number ≤ 8) (env j : ℕ) :
    ∀ k < 16, ¬ SpCell env (env + a64Enum2Offset L (a.teGetReg j) + k) := by
  rintro k hk ⟨hle, hlt⟩
  have hz := L.zregs_ge
  unfold spOffset at hle hlt
  cases hr : a.teGetReg j with
  | none =>
    rw [hr, a64Enum2Offset] at hle
    omega
  | some r =>
    have hn := ha r (mem_of_getElem? hr)
    rw [hr] at hle hlt
    cases r <;> simp only [AReg.number, a64Enum2Offset] at hn hle hlt <;> omega

theorem x2aPiece_avoids {base : Gpr} (hbase : base ∈ x2aBases) {q : (XReg × LocInfo) × ℕ}
    (h : ∀ k < 16, ¬ P ((v base).toNat + q.2 + k)) : ∀ i ∈ x2aPiece base q, i.Avoids v x2aBases P := by
  unfold x2aPiece
  split
  · simp only [forall_mem_cons]
    exact ⟨trivial, ⟨hbase, h⟩, forall_mem_nil _⟩
  · simp only [forall_mem_cons]
    exact ⟨rax_not_base, ⟨hbase, fun k hk => h k (by omega)⟩, forall_mem_nil _⟩

theorem x2aSplit_avoids {lower upper : ℕ} (x : XReg) (hl : ∀ k < 8, ¬ P ((v .rdi).toNat + lower + k))
    (hu : ∀ k < 8, ¬ P ((v .rdi).toNat + upper + k)) :
    ∀ i ∈ x2aSplit x lower upper, i.Avoids v x2aBases P := by
  simp only [x2aSplit, forall_mem_cons]
  exact ⟨rax_not_base, ⟨rdi_base, hl⟩, rax_not_base, ⟨rdi_base, hu⟩, forall_mem_nil _⟩

variable {code : BridgeCode}

theorem x2aConcat_avoids {xs : List XReg}
    (hcode : x2aConcat L xs a = some code)
    (h : ∀ j < a.teNumOfReg, ∀ k < 8, ¬ P ((v .rdi).toNat + a64Enum2Offset L (a.teGetReg j) + k)) :
    ∀ i ∈ code, i.Avoids v x2aBases P := by
  have hsplit : ∀ x, ∀ i < a.teNumOfReg, ∀ j < a.teNumOfReg,
      ∀ c ∈ x2aSplit x (a64Enum2Offset L (a.teGetReg i)) (a64Enum2Offset L (a.teGetReg j)),
        c.Avoids v x2aBases P :=
    fun x i hi j hj => x2aSplit_avoids x (h i hi) (h j hj)
  simp only [x2aConcat] at hcode
  split at hcode
  · simp only [ite_none_right_eq_some, Option.some.injEq] at hcode
    rw [← hcode.2]
    exact hsplit _ 0 (by omega) 1 (by omega)
  · split_ifs at hcode
    · cases hcode
      refine forall_mem_append.mpr ⟨hsplit _ 0 (by omega) 1 (by omega), ?_⟩
      simp only [forall_mem_cons]
      exact ⟨rax_not_base, ⟨rdi_base, h 2 (by omega)⟩, forall_mem_nil _⟩
    · cases hcode
      exact forall_mem_append.mpr
        ⟨hsplit _ 0 (by omega) 1 (by omega), hsplit _ 2 (by omega) 3 (by omega)⟩
  · cases hcode

/-- Offsets for the registers of an argument stay within its size and eight bytes for each. -/
theorem regOffsets_le {size n : ℕ} {ps : List (XReg × LocInfo)} {offset : ℕ}
    {q : (XReg × LocInfo) × ℕ} (hq : q ∈ regOffsets size n ps offset) :
    q.2 ≤ offset + ps.length * (size / n) + 8 * ps.length := by
  induction ps generalizing offset with
  | nil => cases hq
  | cons p ps ih =>
    simp only [length_cons, Nat.add_mul, Nat.mul_add]
    cases hq with
    | head => omega
    | tail _ hq =>
      have := ih hq
      split_ifs at this <;> omega

theorem x2aRegsFromMem_avoids (offset size : ℕ)
    (h : ∀ j, ∀ k < 16, ¬ P ((v .rdi).toNat + a64Enum2Offset L (a.teGetReg j) + k)) :
    ∀ i ∈ x2aRegsFromMem L offset size a.regs, i.Avoids v x2aBases P := by
  intro i hi
  obtain ⟨⟨r, j⟩, hr, hi⟩ := mem_flatMap.mp hi
  have hj : a.teGetReg j = some r := mem_zipIdx_iff_getElem?.mp hr
  have hstore := h j
  rw [hj] at hstore
  simp only at hi
  split at hi
  · simp only [mem_cons, not_mem_nil, or_false] at hi
    rcases hi with rfl | rfl
    · trivial
    · exact ⟨rdi_base, hstore⟩
  · simp only [mem_cons, not_mem_nil, or_false] at hi
    rcases hi with rfl | rfl
    · exact rax_not_base
    · exact ⟨rdi_base, fun k hk => hstore k (by omega)⟩

/-- The block copy keeps the registers, though it uses two of them. -/
theorem run_x2aCopy_kept {E : BridgeExternals} {m : Mem} {size offset aaOffset : ℕ} {s t : State}
    (htop : (v .r10).toNat + aaOffset < 2 ^ 64)
    (h : ∀ k < size, ¬ P ((v .r10).toNat + aaOffset + k)) (hs : Kept v x2aBases P m s)
    (hrun : run E (x2aCopy size offset aaOffset) s = some t) : Kept v x2aBases P m t := by
  have hr10 : s.gpr .r10 = v .r10 := hs.gpr _ (by decide)
  have hdst : (s.gpr .r10 + BitVec.ofInt 64 aaOffset).toNat = (v .r10).toNat + aaOffset := by
    rw [hr10, toNat_add_ofInt _ htop]
  have hsize : (BitVec.ofNat 64 size).toNat ≤ size := by
    rw [toNat_ofNat]
    exact Nat.mod_le _ _
  simp only [x2aCopy, run_cons, run_nil, Insn.step, bind_some, Option.some.injEq] at hrun
  subst hrun
  refine ⟨fun r hr => ?_, fun a ha => ?_⟩
  · rw [← hs.gpr r hr]
    simp only [x2aBases, mem_cons, not_mem_nil, or_false] at hr
    rcases hr with rfl | rfl | rfl | rfl <;> simp
  · rw [← hs.mem a ha]
    simp only [setGpr_mem, setMem_mem, setGpr_gpr, if_true, reduceCtorEq, if_false]
    apply copyForward_outside
    rw [hdst]
    by_contra hin
    obtain ⟨k, rfl⟩ := Nat.exists_eq_add_of_le (show (v .r10).toNat + aaOffset ≤ a by omega)
    exact h k (by omega) ha

variable {E : BridgeExternals} {m : Mem} {bytes : ℕ}

/-- The code for one argument keeps the guest stack pointer. -/
theorem run_x2aArg_kept {x : ABIArgInfo XReg} {s t : State}
    (hcode : x2aArg L a x = some code) (haregs : ∀ r ∈ a.regs, r.number ≤ 8)
    (haslot : a.teIsMem = true → a.teGetMem + a.stackExtent ≤ bytes) (hxregs : x.teNumOfReg ≤ 4)
    (htop : (v .r10).toNat + bytes < 2 ^ 64)
    (hframe : ∀ o < bytes + 64, ¬ SpCell (v .rdi).toNat ((v .r10).toNat + o))
    (hs : Kept v x2aBases (SpCell (v .rdi).toNat) m s) (hrun : run E code s = some t) :
    Kept v x2aBases (SpCell (v .rdi).toNat) m t := by
  have hreg := spCell_not_reg (L := L) haregs (v .rdi).toNat
  unfold x2aArg at hcode
  split at hcode
  · cases hcode
    cases hrun
    exact hs
  · split at hcode
    · cases hcode
    · split at hcode
      case h_1 xs _ hxloc _ _ =>
        split_ifs at hcode
        · cases hcode
          refine run_kept (fun i hi => ?_) hs hrun
          obtain ⟨q, hq, hi⟩ := mem_flatMap.mp hi
          obtain ⟨j, -, hq⟩ := mem_regPairs_iff.mp hq
          refine x2aPiece_avoids rdi_base ?_ i hi
          rw [hq]
          exact hreg j
        · exact run_kept (x2aConcat_avoids hcode fun j _ k hk => hreg j k (by omega)) hs hrun
      case h_2 xs offset _ hxloc hind haloc =>
        cases hcode
        refine run_kept (fun i hi => ?_) hs hrun
        obtain ⟨q, hq, hi⟩ := mem_flatMap.mp hi
        refine x2aPiece_avoids (by decide) (fun k hk => ?_) i hi
        have hle := regOffsets_le hq
        have hmul := Nat.mul_div_le a.size xs.length
        have hlen : xs.length ≤ 4 := by
          simpa [teNumOfReg, regs, hxloc] using hxregs
        have hslot := haslot (by rw [teIsMem, haloc])
        simp only [teGetMem, haloc, stackExtent, hind, Bool.false_eq_true,
          if_false] at hslot
        rw [Nat.add_assoc]
        exact hframe _ (by omega)
      case h_3 => cases hcode
      case h_4 =>
        cases hcode
        exact run_kept (x2aRegsFromMem_avoids _ _ hreg) hs hrun
      case h_5 offset _ aaOffset _ hxloc hind haloc =>
        simp only [ite_none_right_eq_some, Option.some.injEq] at hcode
        obtain ⟨hsize, rfl⟩ := hcode
        have hslot := haslot (by rw [teIsMem, haloc])
        simp only [teGetMem, haloc, stackExtent, hind, Bool.false_eq_true,
          if_false] at hslot
        refine run_x2aCopy_kept (by omega) (fun k hk => ?_) hs hrun
        rw [Nat.add_assoc]
        exact hframe _ (by omega)
      case h_6 =>
        cases hcode
        refine run_kept ?_ hs hrun
        simp only [forall_mem_cons]
        exact ⟨rax_not_base, rax_not_base, ⟨rdi_base, fun k hk => hreg 0 k (by omega)⟩,
          forall_mem_nil _⟩
      case h_7 offset _ aaOffset _ hxloc hind haloc =>
        cases hcode
        have hslot := haslot (by rw [teIsMem, haloc])
        simp only [teGetMem, haloc] at hslot
        refine run_kept ?_ hs hrun
        simp only [forall_mem_cons]
        refine ⟨rax_not_base, rax_not_base, ⟨by decide, fun k hk => ?_⟩, forall_mem_nil _⟩
        rw [Nat.add_assoc]
        exact hframe _ (by omega)

theorem run_x2aArgs_kept {aas : List (ABIArgInfo AReg)} {xxs : List (ABIArgInfo XReg)} {s t : State} (hcode : x2aArgs L aas xxs = some code)
    (haregs : ∀ a ∈ aas, ∀ r ∈ a.regs, r.number ≤ 8)
    (haslots : ∀ a ∈ aas, a.teIsMem = true → a.teGetMem + a.stackExtent ≤ bytes)
    (hxregs : ∀ x ∈ xxs, x.teNumOfReg ≤ 4) (htop : (v .r10).toNat + bytes < 2 ^ 64)
    (hframe : ∀ o < bytes + 64, ¬ SpCell (v .rdi).toNat ((v .r10).toNat + o))
    (hs : Kept v x2aBases (SpCell (v .rdi).toNat) m s) (hrun : run E code s = some t) :
    Kept v x2aBases (SpCell (v .rdi).toNat) m t := by
  induction xxs generalizing aas code s with
  | nil =>
    obtain rfl : [] = code := by cases aas <;> exact Option.some.inj hcode
    cases hrun
    exact hs
  | cons x xxs ih =>
    cases aas with
    | nil => cases hcode
    | cons a aas =>
      simp only [x2aArgs, bind_eq_some_iff, map_eq_some_iff] at hcode
      obtain ⟨c, hc, rest, hrest, rfl⟩ := hcode
      rw [run_append] at hrun
      obtain ⟨u, hu, hrun⟩ := bind_eq_some_iff.mp hrun
      rw [forall_mem_cons] at haregs haslots hxregs
      exact ih hrest haregs.2 haslots.2 hxregs.2
        (run_x2aArg_kept hc haregs.1 haslots.1 hxregs.1 htop hframe hs hu) hrun

end Pieces

/-- Called functions keep the stack pointer, the addresses of `P` and the three words at the top of the
stack. -/
structure ExternalsKeep (E : BridgeExternals) (P : ℕ → Prop) : Prop where
  rsp : ∀ f t, (E.ext f t).gpr .rsp = t.gpr .rsp
  mem : ∀ f t b, P b ∨ (t.gpr .rsp).toNat ≤ b ∧ b < (t.gpr .rsp).toNat + 24 →
    (E.ext f t).mem b = t.mem b

section Blocks
variable {E : BridgeExternals} {P : ℕ → Prop}

/-- Two registers pushed, a call with the stack pointer lowered by another eight, and the registers
popped again. -/
theorem run_pushedCall (hE : ExternalsKeep E P) {s : State} (load : BridgeCode) {f : BridgeFn}
    (hroom : 24 ≤ (s.gpr .rsp).toNat) (hpush : ∀ o < 16, ¬ P ((s.gpr .rsp).toNat - 16 + o))
    (hload : ∀ u : State, ∃ u', run E load u = some u' ∧ u'.gpr .rsp = u.gpr .rsp ∧ u'.mem = u.mem) :
    ∃ t, run E (.push .rdi :: .push .rsi :: (load ++ .addi .rsp (-8) :: .call f :: .addi .rsp 8 ::
        [.pop .rsi, .pop .rdi])) s = some t ∧ Kept s.gpr [.rdi, .rsi, .rsp] P s.mem t := by
  have h8 := toNat_sub_eight (v := s.gpr .rsp) (by omega)
  have h16 := toNat_sub_eight (v := s.gpr .rsp - 8) (by omega)
  have h24 := toNat_sub_eight (v := s.gpr .rsp - 8 - 8) (by omega)
  obtain ⟨u, hu, hursp, humem⟩ := hload ((s.pushed .rdi).pushed .rsi)
  have hrsp : u.gpr .rsp = s.gpr .rsp - 8 - 8 := hursp
  let w := u.setGpr .rsp (u.gpr .rsp + BitVec.ofInt 64 (-8))
  have hw : w.gpr .rsp = s.gpr .rsp - 8 - 8 - 8 := by
    rw [BitVec.sub_eq_add_neg (s.gpr .rsp - 8 - 8), ← hrsp]
    exact setGpr_gpr_same _ _ _
  let u' := (E.ext f w).setGpr .rsp ((E.ext f w).gpr .rsp + BitVec.ofInt 64 8)
  have hu'rsp : u'.gpr .rsp = s.gpr .rsp - 8 - 8 := by
    refine (setGpr_gpr_same _ _ _).trans ?_
    rw [hE.rsp, hw]
    exact BitVec.sub_add_cancel _ 8
  have hbody : run E (load ++ [.addi .rsp (-8), .call f, .addi .rsp 8])
      ((s.pushed .rdi).pushed .rsi) = some u' := by
    rw [run_append_some E hu]
    rfl
  have hmem : ∀ b, P b ∨ (s.gpr .rsp).toNat - 16 ≤ b ∧ b < (s.gpr .rsp).toNat →
      u'.mem b = ((s.pushed .rdi).pushed .rsi).mem b := by
    intro b hb
    rw [← humem]
    refine hE.mem f w b (hb.imp_right fun hb => ?_)
    rw [hw]
    omega
  have hinner := run_saved (r := .rsi) hbody hu'rsp fun k hk => hmem _ (Or.inr (by
    rw [show (s.pushed .rdi).gpr .rsp = s.gpr .rsp - 8 from rfl]
    omega))
  have houter := run_saved (r := .rdi) (s := s) hinner rfl fun k hk => by
    refine (hmem _ (Or.inr (by omega))).trans (storeWord_outside _ _ _ _ _ (Or.inr ?_))
    rw [show (s.pushed .rdi).gpr .rsp = s.gpr .rsp - 8 from rfl]
    omega
  refine ⟨_, by simpa using houter, fun r hr => ?_, fun b hb => ?_⟩
  · simp only [mem_cons, not_mem_nil, or_false] at hr
    rcases hr with rfl | rfl | rfl <;> simp [pushed]
  · refine (hmem b (Or.inl hb)).trans ?_
    have hout : ¬ ((s.gpr .rsp).toNat - 16 ≤ b ∧ b < (s.gpr .rsp).toNat) := by
      rintro ⟨hle, hlt⟩
      obtain ⟨o, rfl⟩ := Nat.exists_eq_add_of_le hle
      exact hpush o (by omega) hb
    have hrsp₁ : (s.pushed .rdi).gpr .rsp = s.gpr .rsp - 8 := rfl
    exact (storeWord_outside _ _ _ _ _ (by rw [hrsp₁]; omega)).trans
      (storeWord_outside _ _ _ _ _ (by omega))

def StackCells (s : State) (b : ℕ) : Prop := SpCell (x2aEnv s) b ∨ RspCell (x2aCtx s) b

theorem stackCells_kept {s t : State} (h : Kept s.gpr [.rdi, .rsi, .rsp] (StackCells s) s.mem t) :
    StackCells t = StackCells s ∧ x2aEnv t = x2aEnv s ∧ x2aCtx t = x2aCtx s ∧
      x2aSp t = x2aSp s ∧ x2aStackArgs t = x2aStackArgs s := by
  have henv : x2aEnv t = x2aEnv s := congrArg BitVec.toNat (h.gpr _ (by decide))
  have hctx : x2aCtx t = x2aCtx s := congrArg BitVec.toNat (h.gpr _ (by decide))
  refine ⟨?_, henv, hctx, ?_, ?_⟩
  · unfold StackCells
    rw [henv, hctx]
  · unfold x2aSp
    rw [henv]
    exact loadWord_congr _ _ _ _ fun k hk => h.mem _ (Or.inl ⟨by omega, by omega⟩)
  · unfold x2aStackArgs
    rw [hctx]
    exact congrArg (· + 8)
      (loadWord_congr _ _ _ _ fun k hk => h.mem _ (Or.inr ⟨by omega, by omega⟩))

def BlockApart (x : ABIArgInfo XReg) (s : State) : Prop :=
  ∀ k < 8, ¬ StackCells s ((if x.teIsMem then x2aStackArgs s + x.teGetMem
    else x2aCtx s + (x.teGetReg 0).elim 0 x64Enum2Offset) + k)

theorem run_x2aBlock_kept {s : State} (hE : ExternalsKeep E (StackCells s)) {x : ABIArgInfo XReg}
    (hroom : 24 ≤ (s.gpr .rsp).toNat)
    (hpush : ∀ o < 16, ¬ StackCells s ((s.gpr .rsp).toNat - 16 + o)) (hx : BlockApart x s) :
    ∃ t, run E (x2aBlock x) s = some t ∧
      Kept s.gpr [.rdi, .rsi, .rsp] (StackCells s) s.mem t := by
  let load : BridgeCode := if x.teIsMem then [.ld .r10 .rsi ctxRspOffset, .ld .rdi .r10 (x.teGetMem + 8)]
    else [.ld .r10 .rsi ((x.teGetReg 0).elim 0 x64Enum2Offset), .mov .rdi .r10]
  obtain ⟨u, hu, hkept⟩ := run_pushedCall hE load (f := .tcgCopyReplaceBlocks) hroom hpush
    fun u => by
      simp only [load]
      split <;> exact ⟨_, rfl, rfl, rfl⟩
  obtain ⟨-, henv, hctx, -, hargs⟩ := stackCells_kept hkept
  let store : BridgeCode := if x.teIsMem then [.ld .r10 .rsi ctxRspOffset, .st .rax .r10 (x.teGetMem + 8)]
    else [.st .rax .rsi ((x.teGetReg 0).elim 0 x64Enum2Offset)]
  have hstore : ∃ t, run E store u = some t ∧
      Kept s.gpr [.rdi, .rsi, .rsp] (StackCells s) s.mem t := by
    simp only [store]
    unfold BlockApart at hx
    split at hx
    case isTrue hmem =>
      rw [if_pos hmem]
      refine ⟨_, rfl, Kept.setMem (hkept.setGpr (by decide) _) (write_avoids fun k hk => ?_)⟩
      have haddr : (u.setGpr .r10 (BitVec.ofNat 64 (u.mem.loadWord (u.ea .rsi ctxRspOffset) 8))).ea .r10
          (x.teGetMem + 8) = x2aStackArgs s + x.teGetMem := by
        rw [ea, setGpr_gpr_same, toNat_ofNat_loadWord _ _ _ le_rfl, ← hargs]
        unfold x2aStackArgs x2aCtx ea
        omega
      rw [haddr]
      exact hx k hk
    case isFalse hmem =>
      rw [if_neg hmem]
      refine ⟨_, rfl, hkept.setMem (write_avoids fun k hk => ?_)⟩
      rw [ea, hkept.gpr .rsi (by decide)]
      exact hx k hk
  obtain ⟨t, ht, hkept'⟩ := hstore
  refine ⟨t, ?_, hkept'⟩
  rw [← ht, ← run_append_some E hu]
  simp only [x2aBlock, List.cons_append, List.append_assoc, List.nil_append, load, store]

theorem run_x2aBlocks_kept {xs : List (ABIArgInfo XReg)} {s : State}
    (hE : ExternalsKeep E (StackCells s)) (hroom : 24 ≤ (s.gpr .rsp).toNat)
    (hpush : ∀ o < 16, ¬ StackCells s ((s.gpr .rsp).toNat - 16 + o))
    (hxs : ∀ x ∈ xs, x.block = true → BlockApart x s) :
    ∃ t, run E (xs.flatMap fun x => if x.block then x2aBlock x else []) s = some t ∧
      Kept s.gpr [.rdi, .rsi, .rsp] (StackCells s) s.mem t := by
  induction xs generalizing s with
  | nil => exact ⟨s, rfl, Kept.refl s _ _⟩
  | cons x xs ih =>
    rw [forall_mem_cons] at hxs
    obtain ⟨u, hu, hkept⟩ : ∃ u, run E (if x.block then x2aBlock x else []) s = some u ∧
        Kept s.gpr [.rdi, .rsi, .rsp] (StackCells s) s.mem u := by
      split_ifs with hx
      · exact run_x2aBlock_kept hE hroom hpush (hxs.1 hx)
      · exact ⟨s, rfl, Kept.refl s _ _⟩
    obtain ⟨hcells, henv, hctx, -, hargs⟩ := stackCells_kept hkept
    have hrsp : u.gpr .rsp = s.gpr .rsp := hkept.gpr _ (by decide)
    obtain ⟨t, ht, hkept'⟩ := ih (s := u) (by rwa [hcells]) (by rwa [hrsp])
      (by rwa [hcells, hrsp]) fun y hy hb => by
        unfold BlockApart
        rw [hcells, hargs, hctx]
        exact hxs.2 y hy hb
    rw [hcells] at hkept'
    exact ⟨t, by rw [flatMap_cons, run_append_some E hu, ht], hkept.trans hkept'⟩

end Blocks

/-- A host call is about to be translated, and the words that lead to the two stacks are apart from
what the code stores: the guest's new stack frame, the two pushed registers, the saved registers and
the stack arguments that hold blocks. -/
structure X2aApart (aaInfo : ABIFnInfo AReg) (xxInfo : ABIFnInfo XReg) (s : State) : Prop where
  room : ffiAlign aaInfo.bytes 16 ≤ x2aSp s
  frame : ∀ o < aaInfo.bytes + 64, ¬ SpCell (x2aEnv s) (x2aLowered aaInfo s + o)
  hostRoom : 24 ≤ (s.gpr .rsp).toNat
  pushes : ∀ o < 16, ¬ StackCells s ((s.gpr .rsp).toNat - 16 + o)
  saved : ∀ o < 256, ¬ SpCell (x2aEnv s) (x2aCtx s + o)
  stackArgs : ∀ x ∈ xxInfo.ainfo, x.block = true → x.teIsMem = true →
    ∀ k < 8, ¬ StackCells s (x2aStackArgs s + x.teGetMem + k)

section Entry
variable {L : EnvLayout} {E : BridgeExternals} {aaInfo : ABIFnInfo AReg} {xxInfo : ABIFnInfo XReg}
  {s : State}

/-- Offset of a saved register, up to sixteen bytes of which are stored. -/
theorem x64Enum2Offset_le_last {r : XReg} (h : r.vectorNumber < 8) : x64Enum2Offset r ≤ 240 := by
  cases r <;> simp only [XReg.vectorNumber, x64Enum2Offset] at h ⊢ <;> omega

/-- The saved stack pointer is not an argument register. -/
theorem rspCell_not_reg (ctx : ℕ) (r : XReg) :
    ∀ k < 8, ¬ RspCell ctx (ctx + x64Enum2Offset r + k) := by
  rintro k hk ⟨hle, hlt⟩
  unfold ctxRspOffset at hle hlt
  cases r <;> simp only [x64Enum2Offset] at hle hlt <;> omega

theorem X2aApart.block (h : X2aApart aaInfo xxInfo s) (hp : PairPlaced aaInfo xxInfo)
    {x : ABIArgInfo XReg} (hx : x ∈ xxInfo.ainfo) (hb : x.block = true) : BlockApart x s := by
  intro k hk
  split_ifs with hmem
  · exact h.stackArgs x hx hb hmem k hk
  · have hoffset : (x.teGetReg 0).elim 0 x64Enum2Offset ≤ 240 := by
      cases hr : x.teGetReg 0 with
      | none => exact Nat.zero_le _
      | some r =>
        exact x64Enum2Offset_le_last
          (hp.xxVectors x (mem_cons_of_mem _ hx) r (mem_of_getElem? hr))
    rintro (hsp | hrsp)
    · rw [Nat.add_assoc] at hsp
      exact h.saved _ (by omega) hsp
    · cases hr : x.teGetReg 0 with
      | none =>
        rw [hr] at hrsp
        exact rspCell_not_reg _ .rax k hk hrsp
      | some r =>
        rw [hr] at hrsp
        exact rspCell_not_reg _ r k hk hrsp

theorem run_x2aRet_kept {aa : ABIArgInfo AReg} {xx : ABIArgInfo XReg} {code : BridgeCode} {t : State}
    (hcode : x2aRet aa xx = some code) (hrun : run E code s = some t) :
    Kept s.gpr [.rdi, .rsi] (SpCell (x2aEnv s)) s.mem t := by
  refine run_kept (fun i hi => ?_) (Kept.refl s _ _) hrun
  unfold x2aRet at hcode
  split at hcode
  · obtain ⟨x, -, rfl⟩ := map_eq_some_iff.mp hcode
    simp only [mem_cons, not_mem_nil, or_false] at hi
    rcases hi with rfl | rfl
    · exact (by decide : Gpr.rax ∉ [Gpr.rdi, Gpr.rsi])
    · refine ⟨by decide, fun k hk hcell => ?_⟩
      unfold SpCell spOffset x2aEnv at hcell
      omega
  · cases hcode
    cases hi

theorem x2aEntry_sp (hp : PairPlaced aaInfo xxInfo) (h : X2aApart aaInfo xxInfo s)
    (hE : ExternalsKeep E (StackCells s)) {code : BridgeCode} {t : State}
    (hcode : abiX2aEntryTranslation L aaInfo xxInfo = some code) (hrun : run E code s = some t) :
    t.gpr .rdi = s.gpr .rdi ∧ x2aSp t = x2aLowered aaInfo s := by
  simp only [abiX2aEntryTranslation, Option.bind_eq_some_iff, Option.map_eq_some_iff] at hcode
  obtain ⟨ret, hret, args, hargs, rfl⟩ := hcode
  obtain ⟨s₁, hs₁, hkept₁⟩ := run_x2aBlocks_kept hE h.hostRoom h.pushes fun x hx hb => h.block hp hx hb
  obtain ⟨-, henv₁, -, hsp₁, -⟩ := stackCells_kept hkept₁
  rw [List.append_assoc, List.append_assoc, run_append_some E hs₁, run_append] at hrun
  obtain ⟨s₂, hs₂, hrun⟩ := Option.bind_eq_some_iff.mp hrun
  have hkept₂ := run_x2aRet_kept hret hs₂
  have hrdi₂ : s₂.gpr .rdi = s.gpr .rdi := (hkept₂.gpr _ (by decide)).trans (hkept₁.gpr _ (by decide))
  have henv₂ : x2aEnv s₂ = x2aEnv s := congrArg BitVec.toNat hrdi₂
  have hsp₂ : x2aSp s₂ = x2aSp s := by
    refine Eq.trans ?_ hsp₁
    unfold x2aSp
    rw [henv₂, henv₁]
    refine loadWord_congr _ _ _ _ fun k hk => hkept₂.mem _ ?_
    rw [henv₁]
    exact ⟨by omega, by omega⟩
  obtain ⟨s₃, hs₃, hrdi₃, -, hr10, -, hmem₃⟩ := run_x2aStack E aaInfo.bytes s₂ (by rw [hsp₂]; exact h.room)
  rw [run_append_some E hs₃] at hrun
  have hrdi : s₃.gpr .rdi = s.gpr .rdi := hrdi₃.trans hrdi₂
  have henv : (s₃.gpr .rdi).toNat = x2aEnv s := congrArg BitVec.toNat hrdi
  have hlow : (s₃.gpr .r10).toNat = x2aLowered aaInfo s := by
    rw [hr10, hsp₂]
    rfl
  have hlt : x2aSp s < 2 ^ 64 := loadWord_lt _ _ 8
  have halign := ffiAlign_sixteen aaInfo.bytes
  have hroom := h.room
  have hkept := run_x2aArgs_kept hargs hp.aaRegs hp.aaSlots hp.xxRegs
    (by rw [hlow]; unfold x2aLowered; omega) (by rw [henv, hlow]; exact h.frame)
    (Kept.refl s₃ x2aBases _) hrun
  have hrdi' : t.gpr .rdi = s.gpr .rdi := (hkept.gpr _ rdi_base).trans hrdi
  refine ⟨hrdi', ?_⟩
  have hcell : x2aSp t = s₃.mem.loadWord (x2aEnv s + spOffset) 8 := by
    unfold x2aSp
    rw [show x2aEnv t = x2aEnv s from congrArg BitVec.toNat hrdi']
    refine loadWord_congr _ _ _ _ fun k hk => hkept.mem _ ?_
    rw [henv]
    exact ⟨by omega, by omega⟩
  rw [hcell, hmem₃, henv₂, loadWord_storeWord, hsp₂]
  exact Nat.mod_eq_of_lt (by omega)

end Entry

/-- A guest function has returned, and the guest stack pointer is apart from what the code stores: the
saved registers, the caller's buffer for a result and, for a block, the pushed registers and the place
that `rsi` points to after the call. -/
structure X2aExitApart (E : BridgeExternals) (xxInfo : ABIFnInfo XReg) (s : State) : Prop where
  saved : ∀ o < 256, ¬ SpCell (x2aEnv s) (x2aCtx s + o)
  buffer : xxInfo.rinfo.indirect = true → ∀ o < 64, ¬ SpCell (x2aEnv s)
    (s.mem.loadWord (x2aCtx s + (xxInfo.rinfo.teGetReg 0).elim 0 x64Enum2Offset) 8 + o)
  hostRoom : 24 ≤ (s.gpr .rsp).toNat
  pushes : ∀ o < 16, ¬ SpCell (x2aEnv s) ((s.gpr .rsp).toNat - 16 + o)
  blockCopy : xxInfo.rinfo.block = true →
    ∀ f t, ∀ k < 8, ¬ SpCell (x2aEnv s) (((E.ext f t).gpr .rsi).toNat + k)

section Exit
variable {L : EnvLayout} {E : BridgeExternals} {v : Gpr → BitVec 64} {K : List Gpr} {P : ℕ → Prop}
  {m : Mem} {s t : State}

theorem transfer_avoids (hrax : .rax ∉ K) {q : Transfer} (hbase : q.dstBase ∈ K)
    (h : ∀ k < q.width.bytes, ¬ P ((v q.dstBase).toNat + q.dst + k)) :
    ∀ i ∈ (q.code : BridgeCode), i.Avoids v K P := by
  unfold Transfer.code
  cases hw : q.width <;> rw [hw] at h <;> simp only [forall_mem_cons]
  · exact ⟨hrax, ⟨hbase, h⟩, forall_mem_nil _⟩
  · exact ⟨hrax, ⟨hbase, h⟩, forall_mem_nil _⟩
  · exact ⟨trivial, ⟨hbase, h⟩, forall_mem_nil _⟩

variable {ts : List Transfer}

theorem run_transfers_kept (hrax : .rax ∉ K)
    (hts : ∀ q ∈ ts, q.dstBase ∈ K ∧ ∀ k < q.width.bytes, ¬ P ((v q.dstBase).toNat + q.dst + k))
    (hs : Kept v K P m s) (hrun : run E (ts.flatMap Transfer.code) s = some t) : Kept v K P m t := by
  refine run_kept (fun i hi => ?_) hs hrun
  obtain ⟨q, hq, hi⟩ := mem_flatMap.mp hi
  exact transfer_avoids hrax (hts q hq).1 (hts q hq).2 i hi

theorem x2aExitConcat_dst {xs : List XReg} {as : List AReg}
    (h : x2aExitConcat L xs as = some ts) :
    ∀ q ∈ ts, q.dstBase = .rsi ∧ ∃ x ∈ xs, q.dst ≤ x64Enum2Offset x + 4 ∧ q.width = .half := by
  simp only [x2aExitConcat] at h
  split at h <;> simp only [ite_none_right_eq_some, Option.some.injEq, reduceCtorEq] at h
  all_goals
    rw [← h.2]
    simp

theorem x2aExitToMem_dst {as : List AReg} (h : x2aExitToMem L as = some ts) :
    ∀ q ∈ ts, q.dstBase = .r8 ∧ q.dst + q.width.bytes ≤ 16 * as.length := by
  simp only [x2aExitToMem] at h
  split_ifs at h
  split at h <;> simp only [Option.some.injEq, reduceCtorEq] at h
  all_goals
    subst h
    intro q hq
    obtain ⟨⟨a, j⟩, hj, rfl⟩ := mem_map.mp hq
    have hlt := (List.getElem?_eq_some_iff.mp (List.mem_zipIdx_iff_getElem?.mp hj)).1
    refine ⟨rfl, ?_⟩
    simp only [Width.bytes]
    omega

theorem run_x2aExitResult_kept {a : ABIArgInfo AReg} {x : ABIArgInfo XReg} {code : BridgeCode}
    (hcode : x2aExitResult L a x = some code) (ha : a.teNumOfReg ≤ 4)
    (hx : ∀ r ∈ x.regs, r.vectorNumber < 8) (hsaved : ∀ o < 256, ¬ P (x2aCtx s + o))
    (hbuffer : x.indirect = true → ∀ o < 64,
      ¬ P (s.mem.loadWord (x2aCtx s + (x.teGetReg 0).elim 0 x64Enum2Offset) 8 + o))
    (hrun : run E code s = some t) : Kept s.gpr [.rdi, .rsi, .rsp] P s.mem t := by
  have hreg : ∀ r ∈ x.regs, x64Enum2Offset r ≤ 240 := fun r hr => x64Enum2Offset_le_last (hx r hr)
  unfold x2aExitResult at hcode
  split at hcode
  case h_1 xs _ _ hloc =>
    split_ifs at hcode
    · cases hcode
      refine run_transfers_kept (by decide) (fun q hq => ?_) (Kept.refl s _ _) hrun
      obtain ⟨⟨p, offset⟩, hp, rfl⟩ := mem_map.mp hq
      obtain ⟨j, hj, -⟩ := mem_regPairs_iff.mp hp
      have hle := hreg p.1 (by
        rw [regs, hloc]
        exact mem_map_of_mem (mem_of_getElem? hj))
      dsimp only
      refine ⟨by decide, fun k hk => ?_⟩
      have hbytes : k < 16 := lt_of_lt_of_le hk (by split_ifs <;> decide)
      rw [Nat.add_assoc]
      exact hsaved _ (by omega)
    · obtain ⟨ts, hts, rfl⟩ := map_eq_some_iff.mp hcode
      refine run_transfers_kept (by decide) (fun q hq => ?_) (Kept.refl s _ _) hrun
      obtain ⟨hbase, r, hr, hdst, hw⟩ := x2aExitConcat_dst hts q hq
      have hle := hreg r hr
      rw [hbase, hw]
      refine ⟨by decide, fun k hk => ?_⟩
      simp only [Width.bytes] at hk
      rw [Nat.add_assoc]
      exact hsaved _ (by omega)
  case h_2 => cases hcode
  case h_3 hind _ =>
    obtain ⟨ts, hts, rfl⟩ := map_eq_some_iff.mp hcode
    let u := s.setGpr .r8 (BitVec.ofNat 64
      (s.mem.loadWord (x2aCtx s + (x.teGetReg 0).elim 0 x64Enum2Offset) 8))
    have hrun' : run E (ts.flatMap Transfer.code) u = some t := hrun
    have hr8 : (u.gpr .r8).toNat =
        s.mem.loadWord (x2aCtx s + (x.teGetReg 0).elim 0 x64Enum2Offset) 8 := by
      rw [setGpr_gpr_same, toNat_ofNat_loadWord _ _ _ le_rfl]
    have hkept := run_transfers_kept (K := [.rdi, .rsi, .rsp, .r8]) (P := P) (by decide) (fun q hq => by
      obtain ⟨hbase, hdst⟩ := x2aExitToMem_dst hts q hq
      have hlen : a.regs.length ≤ 4 := ha
      rw [hbase, hr8]
      refine ⟨by decide, fun k hk => ?_⟩
      rw [Nat.add_assoc]
      exact hbuffer hind _ (by omega)) (Kept.refl u _ _) hrun'
    refine ⟨fun r hr => ?_, hkept.mem⟩
    simp only [mem_cons, not_mem_nil, or_false] at hr
    rcases hr with rfl | rfl | rfl
    · exact hkept.gpr _ (by decide)
    · exact hkept.gpr _ (by decide)
    · exact hkept.gpr _ (by decide)
  case h_4 =>
    cases hcode
    cases hrun
    exact Kept.refl s _ _

theorem run_x2aExitStack (bytes : ℕ) :
    ∃ t, run E (x2aExitStack bytes) s = some t ∧ t.gpr .rdi = s.gpr .rdi ∧ t.gpr .rsp = s.gpr .rsp ∧
      x2aSp t = (x2aSp s + ffiAlign bytes 16) % 2 ^ 64 := by
  refine ⟨_, rfl, rfl, rfl, ?_⟩
  have hload : (BitVec.ofNat 64 (s.mem.loadWord ((s.gpr .rdi).toNat + spOffset) 8)).toNat =
      x2aSp s := toNat_ofNat_loadWord _ _ _ le_rfl
  simp only [x2aSp, x2aEnv, ea, setGpr_gpr, setGpr_mem, setMem_gpr,
    setMem_mem, reduceCtorEq, if_false, if_true, loadWord_storeWord]
  rw [toNat_add, hload, ofInt_natCast, toNat_ofNat]
  simp only [x2aSp, x2aEnv]
  omega

/-- The code for a block keeps the guest stack pointer, though it stores through `rsi` after the
call. -/
theorem run_x2aExitBlock_sp {env : ℕ} (hE : ExternalsKeep E (SpCell env))
    (hroom : 24 ≤ (s.gpr .rsp).toNat) (hpush : ∀ o < 16, ¬ SpCell env ((s.gpr .rsp).toNat - 16 + o))
    (hrsi : ∀ f t, ∀ k < 8, ¬ SpCell env (((E.ext f t).gpr .rsi).toNat + k)) :
    ∃ t, run E x2aExitBlock s = some t ∧ ∀ b, SpCell env b → t.mem b = s.mem b := by
  have h8 := toNat_sub_eight (v := s.gpr .rsp) (by omega)
  have h16 := toNat_sub_eight (v := s.gpr .rsp - 8) (by omega)
  let u := (s.pushed .rdi).pushed .rsi
  let w := ((u.setGpr .rdi (BitVec.ofNat 64 (u.mem.loadWord (u.ea .rdi 0) 8)))).setGpr .rsp
    (u.gpr .rsp + BitVec.ofInt 64 (-8))
  refine ⟨_, rfl, fun b hb => ?_⟩
  have hu : u.mem b = s.mem b := by
    have hout : ¬ ((s.gpr .rsp).toNat - 16 ≤ b ∧ b < (s.gpr .rsp).toNat) := by
      rintro ⟨hle, hlt⟩
      obtain ⟨o, rfl⟩ := Nat.exists_eq_add_of_le hle
      exact hpush o (by omega) hb
    have hrsp₁ : (s.pushed .rdi).gpr .rsp = s.gpr .rsp - 8 := rfl
    exact (storeWord_outside _ _ _ _ _ (by rw [hrsp₁]; omega)).trans
      (storeWord_outside _ _ _ _ _ (by omega))
  have hw : (E.ext .tcgCopyReplaceBlocks w).mem b = u.mem b := hE.mem _ _ _ (Or.inl hb)
  refine Eq.trans (write_avoids (P := SpCell env) (fun k hk => ?_) b hb) (hw.trans hu)
  exact hrsi .tcgCopyReplaceBlocks w k hk

/-- The exit raises the guest stack pointer again, unless it returns early. -/
theorem x2aExit_sp {aaInfo : ABIFnInfo AReg} {xxInfo : ABIFnInfo XReg} (hp : PairPlaced aaInfo xxInfo)
    (h : X2aExitApart E xxInfo s) (hE : ExternalsKeep E (SpCell (x2aEnv s))) {code : BridgeCode}
    (hcode : abiX2aExitTranslation L aaInfo xxInfo = some code) (hrun : run E code s = some t) :
    t.mem.loadWord (x2aEnv s + spOffset) 8 = if returnsThisOnce aaInfo xxInfo then x2aSp s
      else (x2aSp s + ffiAlign aaInfo.bytes 16) % 2 ^ 64 := by
  simp only [abiX2aExitTranslation] at hcode
  by_cases h₁ : xxInfo.isCxxStructor = true ∧ xxInfo.rinfo.teNumOfReg = 0 ∧
      aaInfo.rinfo.teNumOfReg = 1
  · rw [if_pos h₁] at hcode
    cases hcode
    cases hrun
    rw [if_pos ⟨h₁.1, Or.inl h₁.2⟩]
    rfl
  rw [if_neg h₁] at hcode
  by_cases h₂ : xxInfo.isCxxStructor = true ∧ xxInfo.rinfo.teNumOfReg = 1 ∧
      aaInfo.rinfo.teNumOfReg = 0
  · rw [if_pos h₂] at hcode
    cases hcode
    cases hrun
    rw [if_pos ⟨h₂.1, Or.inr h₂.2⟩]
    refine loadWord_congr _ _ _ _ fun k hk => ?_
    refine write_avoids (P := SpCell (x2aEnv s)) (fun j hj => ?_) _ ⟨by omega, by omega⟩
    exact h.saved j (by omega)
  rw [if_neg h₂] at hcode
  have hnot : ¬ returnsThisOnce aaInfo xxInfo := fun ⟨hc, hn⟩ =>
    hn.elim (fun hn => h₁ ⟨hc, hn⟩) fun hn => h₂ ⟨hc, hn⟩
  rw [if_neg hnot]
  obtain ⟨result, hresult, rfl⟩ := Option.map_eq_some_iff.mp hcode
  rw [List.append_assoc, run_append] at hrun
  obtain ⟨s₁, hs₁, hrun⟩ := Option.bind_eq_some_iff.mp hrun
  have hkept := run_x2aExitResult_kept hresult hp.aaRet (hp.xxVectors _ List.mem_cons_self) h.saved
    h.buffer hs₁
  have henv₁ : x2aEnv s₁ = x2aEnv s := congrArg BitVec.toNat (hkept.gpr _ (by decide))
  have hsp₁ : x2aSp s₁ = x2aSp s := by
    unfold x2aSp
    rw [henv₁]
    exact loadWord_congr _ _ _ _ fun k hk => hkept.mem _ ⟨by omega, by omega⟩
  obtain ⟨s₂, hs₂, hrdi₂, hrsp₂, hsp₂⟩ := run_x2aExitStack (E := E) (s := s₁) aaInfo.bytes
  rw [run_append_some E hs₂] at hrun
  have henv₂ : x2aEnv s₂ = x2aEnv s := (congrArg BitVec.toNat hrdi₂).trans henv₁
  rw [hsp₁] at hsp₂
  rw [← hsp₂, x2aSp, henv₂]
  refine loadWord_congr _ _ _ _ fun k hk => ?_
  split_ifs at hrun with hblock
  · have hrsp : s₂.gpr .rsp = s.gpr .rsp := hrsp₂.trans (hkept.gpr _ (by decide))
    obtain ⟨u, hu, hmem⟩ := run_x2aExitBlock_sp (s := s₂) hE (by rw [hrsp]; exact h.hostRoom)
      (by rw [hrsp]; exact h.pushes) (h.blockCopy hblock)
    obtain rfl := Option.some.inj (hu.symm.trans hrun)
    exact hmem _ ⟨by omega, by omega⟩
  · cases hrun
    rfl

end Exit

/-- For every two descriptions of one function, the two bridges leave the stack pointers where they
were, whatever the callee does between them with everything else, exactly under these conditions: unless
the exit returns early for a constructor or destructor, or there was nothing on the stack. -/
theorem bridge_stackBalance_iff (L : EnvLayout) (E : BridgeExternals) (aaInfo : ABIFnInfo AReg)
    (xxInfo : ABIFnInfo XReg) (hp : PairPlaced aaInfo xxInfo) (haa : aaInfo.bytes < 2 ^ 31)
    (hxx : xxInfo.bytes < 2 ^ 31) (hE : ∀ f s, (E.ext f s).gpr .rsp = s.gpr .rsp) :
    (∀ entry exit s s₁ s₂ t, abiA2xEntryTranslation L aaInfo xxInfo = some entry →
      abiA2xExitTranslation L aaInfo xxInfo = some exit → run E entry s = some s₁ →
      s₂.gpr .rsp = s₁.gpr .rsp → run E exit s₂ = some t →
      (t.gpr .rsp = s.gpr .rsp ↔ (returnsThisOnce aaInfo xxInfo →
        xxInfo.bytes = 0 ∧ a2xSretSpace aaInfo xxInfo = 0))) ∧
    (∀ entry exit s s₁ s₂ t, abiX2aEntryTranslation L aaInfo xxInfo = some entry →
      abiX2aExitTranslation L aaInfo xxInfo = some exit → ExternalsKeep E (StackCells s) →
      X2aApart aaInfo xxInfo s → run E entry s = some s₁ →
      x2aEnv s₂ = x2aEnv s → x2aSp s₂ = x2aSp s₁ → X2aExitApart E xxInfo s₂ →
      run E exit s₂ = some t →
      (t.mem.loadWord (x2aEnv s + spOffset) 8 = x2aSp s ↔
        (returnsThisOnce aaInfo xxInfo → aaInfo.bytes = 0))) := by
  refine ⟨fun entry exit s s₁ s₂ t hentry hexit hrun₁ hcallee hrun₂ => ?_,
    fun entry exit s s₁ s₂ t hentry hexit hkeep hs hrun₁ henv hcallee hs₂ hrun₂ => ?_⟩
  · rw [a2x_rsp hE hentry hexit hrun₁ hcallee hrun₂]
    by_cases hthis : returnsThisOnce aaInfo xxInfo
    · have halign := ffiAlign_sixteen xxInfo.bytes
      have hspace : a2xSretSpace aaInfo xxInfo ≤ 64 := by
        unfold a2xSretSpace bigEnoughSretSize
        split_ifs <;> omega
      have hlt := (s.gpr .rsp).isLt
      rw [if_pos hthis, ← toNat_inj, toNat_sub, toNat_ofNat]
      simp only [hthis, true_imp_iff]
      omega
    · simp [hthis]
  · obtain ⟨hrdi, hlow⟩ := x2aEntry_sp hp hs hkeep hentry hrun₁
    have hcells : ExternalsKeep E (SpCell (x2aEnv s₂)) := by
      refine ⟨hE, fun f u b hb => hkeep.mem f u b (hb.imp_left fun hb => Or.inl ?_)⟩
      rwa [henv] at hb
    have hexitSp := x2aExit_sp hp hs₂ hcells hexit hrun₂
    rw [henv, hcallee, hlow] at hexitSp
    rw [hexitSp]
    have halign := ffiAlign_sixteen aaInfo.bytes
    have hroom := hs.room
    have hlt : x2aSp s < 2 ^ 64 := loadWord_lt _ _ 8
    unfold x2aLowered
    by_cases hthis : returnsThisOnce aaInfo xxInfo
    · simp only [hthis, if_true, true_imp_iff]
      omega
    · simp only [hthis, if_false, false_imp_iff, iff_true]
      omega

def ninePointers (ret : ResultType) : Signature where
  ret := ret
  args := replicate 9 (.scalar .pointer)
  nfixed := 0
  nfixed_le := Nat.zero_le _

/-- A constructor with nine arguments returns its object on AArch64 and nothing on x86-64. -/
def ctorAaInfo : ABIFnInfo AReg := (ninePointers (FlatType.scalar .pointer).result).aaInfo

def ctorXxInfo : ABIFnInfo XReg := { (ninePointers .void).xxInfo with isCxxStructor := true }

/-- Host stack pointer 262144; `hostCallState` elsewhere. -/
def hostStackState : State := hostCallState.setGpr .rsp 262144

theorem x2aApart_hostStack {aaInfo : ABIFnInfo AReg} {xxInfo : ABIFnInfo XReg}
    (haa : aaInfo.bytes ≤ 64) (hxx : ∀ x ∈ xxInfo.ainfo, x.block = false) :
    X2aApart aaInfo xxInfo hostStackState := by
  have henv : x2aEnv hostStackState = 4096 := rfl
  have hctx : x2aCtx hostStackState = 32768 := rfl
  have hsp : x2aSp hostStackState = 65536 := by decide
  have hrsp : (hostStackState.gpr .rsp).toNat = 262144 := rfl
  have halign := ffiAlign_sixteen aaInfo.bytes
  refine ⟨by omega, fun o ho => ?_, by omega, fun o ho => ?_, fun o ho => ?_, fun x hx hb => ?_⟩
  · unfold SpCell spOffset x2aLowered
    omega
  · unfold StackCells SpCell RspCell spOffset ctxRspOffset
    omega
  · unfold SpCell spOffset
    omega
  · rw [hxx x hx] at hb
    cases hb

/-- The guest function returns with the caller's registers and stack as they were. -/
def hostReturnFrom (s : State) : State := hostStackState.setMem s.mem

theorem x2aExitApart_hostReturnFrom {xxInfo : ABIFnInfo XReg} (hxx : xxInfo.rinfo.indirect = false)
    (hb : xxInfo.rinfo.block = false) (s : State) :
    X2aExitApart idleExternals xxInfo (hostReturnFrom s) := by
  have henv : x2aEnv (hostReturnFrom s) = 4096 := rfl
  have hctx : x2aCtx (hostReturnFrom s) = 32768 := rfl
  have hrsp : ((hostReturnFrom s).gpr .rsp).toNat = 262144 := rfl
  refine ⟨fun o ho => ?_, fun hind => ?_, by omega, fun o ho => ?_, fun hblock => ?_⟩
  · unfold SpCell spOffset
    omega
  · rw [hxx] at hind
    cases hind
  · unfold SpCell spOffset
    omega
  · rw [hb] at hblock
    cases hblock

theorem x2aSp_hostReturnFrom {s : State} (h : s.gpr .rdi = hostStackState.gpr .rdi) :
    x2aSp (hostReturnFrom s) = x2aSp s := by
  unfold x2aSp x2aEnv
  rw [h]
  rfl

theorem externalsKeep_idle (P : ℕ → Prop) : ExternalsKeep idleExternals P :=
  ⟨fun _ _ => rfl, fun _ _ _ _ => rfl⟩

theorem bridge_stackBalance_ninePointers :
    (∃ entry exit s₁ t,
      abiA2xEntryTranslation .least (ninePointers .void).aaInfo (ninePointers .void).xxInfo =
        some entry ∧
      abiA2xExitTranslation .least (ninePointers .void).aaInfo (ninePointers .void).xxInfo = some exit ∧
      run idleExternals entry idleState = some s₁ ∧ run idleExternals exit s₁ = some t ∧
      t.gpr .rsp = idleState.gpr .rsp) ∧
    ∃ entry exit s₁ t,
      abiX2aEntryTranslation .least (ninePointers .void).aaInfo (ninePointers .void).xxInfo =
        some entry ∧
      abiX2aExitTranslation .least (ninePointers .void).aaInfo (ninePointers .void).xxInfo = some exit ∧
      run idleExternals entry hostStackState = some s₁ ∧
      run idleExternals exit (hostReturnFrom s₁) = some t ∧
      t.mem.loadWord (x2aEnv hostStackState + spOffset) 8 = x2aSp hostStackState := by
  have hp : PairPlaced (ninePointers .void).aaInfo (ninePointers .void).xxInfo :=
    ⟨by decide, by decide, by decide, by decide, by decide⟩
  have h := bridge_stackBalance_iff .least idleExternals _ _ hp (by decide) (by decide) fun _ _ => rfl
  constructor
  · obtain ⟨entry, hentry, s₁, hs₁⟩ : ∃ entry, abiA2xEntryTranslation .least (ninePointers .void).aaInfo
        (ninePointers .void).xxInfo = some entry ∧ ∃ s₁, run idleExternals entry idleState = some s₁ :=
      ⟨_, rfl, _, rfl⟩
    refine ⟨entry, _, s₁, _, hentry, rfl, hs₁, rfl, ?_⟩
    exact (h.1 entry _ idleState s₁ s₁ _ hentry rfl hs₁ rfl rfl).mpr (by decide)
  · obtain ⟨entry, hentry, s₁, hs₁⟩ : ∃ entry, abiX2aEntryTranslation .least (ninePointers .void).aaInfo
        (ninePointers .void).xxInfo = some entry ∧
        ∃ s₁, run idleExternals entry hostStackState = some s₁ := ⟨_, rfl, _, rfl⟩
    have hapart : X2aApart (ninePointers .void).aaInfo (ninePointers .void).xxInfo hostStackState :=
      x2aApart_hostStack (by decide) (by decide)
    have henv₁ := (x2aEntry_sp hp hapart (externalsKeep_idle _) hentry hs₁).1
    refine ⟨entry, _, s₁, _, hentry, rfl, hs₁, rfl, ?_⟩
    exact (h.2 entry _ hostStackState s₁ (hostReturnFrom s₁) _ hentry rfl (externalsKeep_idle _) hapart
      hs₁ rfl (x2aSp_hostReturnFrom henv₁) (x2aExitApart_hostReturnFrom rfl rfl _) rfl).mpr (by decide)

/-- The constructor with nine arguments leaves both stack pointers too low. -/
theorem bridge_stackBalance_constructor :
    (∃ entry exit s₁ t, abiA2xEntryTranslation .least ctorAaInfo ctorXxInfo = some entry ∧
      abiA2xExitTranslation .least ctorAaInfo ctorXxInfo = some exit ∧
      run idleExternals entry idleState = some s₁ ∧ run idleExternals exit s₁ = some t ∧
      t.gpr .rsp = idleState.gpr .rsp - 32) ∧
    ∃ entry exit s₁ t, abiX2aEntryTranslation .least ctorAaInfo ctorXxInfo = some entry ∧
      abiX2aExitTranslation .least ctorAaInfo ctorXxInfo = some exit ∧
      X2aApart ctorAaInfo ctorXxInfo hostStackState ∧
      run idleExternals entry hostStackState = some s₁ ∧
      run idleExternals exit (hostReturnFrom s₁) = some t ∧
      t.mem.loadWord (x2aEnv hostStackState + spOffset) 8 = x2aSp hostStackState - 16 := by
  have hp : PairPlaced ctorAaInfo ctorXxInfo := ⟨by decide, by decide, by decide, by decide, by decide⟩
  have hapart : X2aApart ctorAaInfo ctorXxInfo hostStackState :=
    x2aApart_hostStack (by decide) (by decide)
  constructor
  · obtain ⟨entry, hentry, s₁, hs₁⟩ : ∃ entry, abiA2xEntryTranslation .least ctorAaInfo ctorXxInfo =
        some entry ∧ ∃ s₁, run idleExternals entry idleState = some s₁ := ⟨_, rfl, _, rfl⟩
    refine ⟨entry, _, s₁, _, hentry, rfl, hs₁, rfl, ?_⟩
    exact a2x_rsp (fun _ _ => rfl) hentry rfl hs₁ rfl rfl
  · obtain ⟨entry, hentry, s₁, hs₁⟩ : ∃ entry, abiX2aEntryTranslation .least ctorAaInfo ctorXxInfo =
        some entry ∧ ∃ s₁, run idleExternals entry hostStackState = some s₁ := ⟨_, rfl, _, rfl⟩
    obtain ⟨henv, hlow⟩ := x2aEntry_sp hp hapart (externalsKeep_idle _) hentry hs₁
    refine ⟨entry, _, s₁, _, hentry, rfl, hapart, hs₁, rfl, ?_⟩
    exact (x2aSp_hostReturnFrom henv).trans hlow

end Iqemu64
