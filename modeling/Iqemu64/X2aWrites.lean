import Iqemu64.GuestStack
import Iqemu64.X64Writes

/-!
# What the host-to-guest entry writes

An argument's code writes to its own registers and to its own stack slot, with two exceptions. A
general register is stored as a whole word, so the last slots may reach beyond the guest frame. And a
vector register is stored as sixteen bytes, so the second half of a struct may spill into the general
register after its own.
-/

namespace Iqemu64
open ByteMemory X64 StepChain List Option State ABIArgInfo

/-- The general register that the upper half of a vector register is stored to, where the pair of
registers before it is `x n` and `x (n + 1)` and the first one is not itself stored as a vector. -/
def x2aSpill (a : ABIArgInfo AReg) (x : ABIArgInfo XReg) : Option ℕ :=
  match x.regs, a.regs with
  | [r, r'], [_, .x n] => if r.isXmm = false ∧ r'.isXmm = true ∧ n % 2 = 0 then some (n + 1) else none
  | _, _ => none

/-- Whole words that go from general registers to the guest stack end inside the frame. -/
def StaysInFrame (aaBytes : ℕ) (a : ABIArgInfo AReg) (x : ABIArgInfo XReg) : Prop :=
  match x.loc, a.loc with
  | .regs xs, .mem offset _ =>
    (∀ q ∈ xs, q.1.isXmm = false) → offset + 8 * xs.length ≤ ffiAlign aaBytes 16
  | _, _ => True

instance (aaBytes : ℕ) (a : ABIArgInfo AReg) (x : ABIArgInfo XReg) :
    Decidable (StaysInFrame aaBytes a x) := by
  unfold StaysInFrame
  refine ArgLoc.casesOn x.loc (fun _ => ?_) fun _ _ => ?_
  all_goals refine ArgLoc.casesOn a.loc (fun _ => ?_) (fun _ _ => ?_) <;> infer_instance

def XRegCell (env n b : ℕ) : Prop := env + 8 * n ≤ b ∧ b < env + 8 * n + 8

section Argument
variable {L : EnvLayout} {E : BridgeExternals} {S : X2aSite L} {m₀ : Mem} {c c' : Counters}
  {p : Placement} {s : State} {t : FlatType} {b : ℕ}

inductive X2aWrite (S : X2aSite L) (p : Placement) (b : ℕ) : Prop
  | vector (h : S.env + L.zregs ≤ b ∧ b < S.env + L.size)
  | register {n : ℕ} (hn : .x n ∈ p.1.regs) (hn8 : n < 8) (h : XRegCell S.env n b)
  | spill {n : ℕ} (hn : x2aSpill p.1 p.2 = some n) (hn8 : n < 8) (h : XRegCell S.env n b)
  | slot (h : S.sp ≤ b ∧ b < S.sp + S.aaBytes + 16)
      (hframe : b < S.sp + ffiAlign S.aaBytes 16 ∨ ¬ StaysInFrame S.aaBytes p.1 p.2)

/-- What a list of pieces writes, up to the first one that is not aligned. -/
theorem written_pieces (hinv : X2aInv S m₀ s) {base : Gpr} (hne : base ≠ .rax)
    (hbase : (s.gpr base).toNat % 16 = 0) (qs : List ((XReg × LocInfo) × ℕ)) :
    Written E (qs.flatMap (x2aPiece base)) s b ↔ ∃ before q after, qs = before ++ q :: after ∧
      (∀ u ∈ before, u.1.1.isXmm = true → u.2 % 16 = 0) ∧ (q.1.1.isXmm = true → q.2 % 16 = 0) ∧
      (s.gpr base).toNat + q.2 ≤ b ∧
      b < (s.gpr base).toNat + q.2 + (if q.1.1.isXmm then 16 else 8) := by
  have hcovers : ∀ q, (x2aTransfer base q).Covers s b ↔ (s.gpr base).toNat + q.2 ≤ b ∧
      b < (s.gpr base).toNat + q.2 + (if q.1.1.isXmm then 16 else 8) := by
    intro q
    simp only [Transfer.Covers, x2aTransfer, ea]
    cases q.1.1.isXmm <;> rfl
  rw [flatMap_x2aPiece, written_transfers (x2aTransfer_based hne qs)]
  constructor
  · rintro ⟨before, u, after, heq, hbefore, hal, hcov⟩
    obtain ⟨qs₁, rest, rfl, rfl, hrest⟩ := map_eq_append_iff.mp heq
    obtain ⟨q, qs₂, rfl, rfl, -⟩ := map_eq_cons_iff.mp hrest
    refine ⟨qs₁, q, qs₂, rfl, fun u hu => ?_, (x2aTransfer_aligned_iff hinv hbase q).mp hal,
      (hcovers q).mp hcov⟩
    exact (x2aTransfer_aligned_iff hinv hbase u).mp (hbefore _ (mem_map_of_mem hu))
  · rintro ⟨before, q, after, rfl, hbefore, hal, hcov⟩
    refine ⟨before.map (x2aTransfer base), x2aTransfer base q, after.map (x2aTransfer base),
      by simp, ?_, (x2aTransfer_aligned_iff hinv hbase q).mpr hal, (hcovers q).mpr hcov⟩
    rw [List.forall_mem_map]
    exact fun u hu => (x2aTransfer_aligned_iff hinv hbase u).mpr (hbefore u hu)

theorem item_of_singleton {α : Type} {u q : α} {before after : List α}
    (h : [u] = before ++ q :: after) : before = [] ∧ q = u := by
  match before, h with
  | [], h => exact ⟨rfl, (List.cons.inj h).1.symm⟩
  | _ :: _, h => simp at h

theorem item_of_pair {α : Type} {u v q : α} {before after : List α}
    (h : [u, v] = before ++ q :: after) : before = [] ∧ q = u ∨ before = [u] ∧ q = v := by
  match before, h with
  | [], h => exact Or.inl ⟨rfl, (List.cons.inj h).1.symm⟩
  | w :: before, h =>
    obtain ⟨hw, hrest⟩ := List.cons.inj h
    obtain ⟨rfl, rfl⟩ := item_of_singleton hrest
    exact Or.inr ⟨by rw [hw], rfl⟩

variable {size n g : ℕ}

theorem X2aWrite.of_general {j : ℕ} {x : ABIArgInfo XReg} {ind : Bool} (hj : j < n)
    (hg : g + j < 8) (hlo : S.env + 8 * (g + j) ≤ b) (hhi : b < S.env + 8 * (g + j) + 8) :
    X2aWrite S ({ aaInRegs .x g n size with indirect := ind }, x) b := by
  refine .register (n := g + j) ?_ hg ⟨hlo, hhi⟩
  simp only [regs, aaRegs, List.map_map, List.mem_map, List.mem_range, Function.comp]
  exact ⟨j, hj, rfl⟩

theorem X2aWrite.of_vector {q : Placement} {v : ℕ} (hv : v < 8) (hlo : S.env + (L.zregs + 256 * v) ≤ b)
    (hhi : b < S.env + (L.zregs + 256 * v) + 16) : X2aWrite S q b := by
  refine .vector ?_
  unfold EnvLayout.size
  omega

variable {offset : ℕ}

theorem X2aWrite.of_slot {q : Placement} (hfit : offset + size ≤ S.aaBytes)
    (hlo : S.sp + offset ≤ b) (hhi : b < S.sp + offset + size) : X2aWrite S q b := by
  have := ffiAlign_sixteen S.aaBytes
  exact .slot ⟨by omega, by omega⟩ (Or.inl (by omega))

theorem x2aWrite_general (hinv : X2aInv S m₀ s) (hfits : t.XxFits c.2) (hv : t.vector = none) (hg : g + (t.size + 7) / 8 ≤ 8)
    (hw : Written E ((regPairs L (xxPieces t.locInfo t.classes c.2.gprcount c.2.ssecount)
      (aaInRegs .x g ((t.size + 7) / 8) t.size)).flatMap (x2aPiece .rdi)) s b) :
    X2aWrite S (aaInRegs .x g ((t.size + 7) / 8) t.size, t.xxInRegs c.2) b := by
  have hpos := t.size_pos
  have hoff : ∀ j < (t.size + 7) / 8, a64Enum2Offset L
      ((aaInRegs .x g ((t.size + 7) / 8) t.size).teGetReg j) = 8 * (g + j) := by
    intro j hj
    rw [teGetReg_aaInRegs hj]
    rfl
  obtain ⟨before, q, after, heq, hbefore, hal, hlo, hhi⟩ :=
    (written_pieces hinv (by decide) (by rw [hinv.rdi]; exact S.env_aligned) _).mp hw
  rw [hinv.rdi] at hlo hhi
  rcases hfits.pieces with ⟨h8, r, hr⟩ | ⟨h8, r, r', hr⟩
  · -- a single register is a general one
    have hgpr : r.1.isXmm = false := by
      have hmem : r ∈ xxPieces t.locInfo t.classes c.2.gprcount c.2.ssecount := by simp [hr]
      rcases mem_xxPieces hmem with ⟨i, -, -, rfl⟩ | ⟨i, hi, hi', -⟩
      · exact isXmm_xxGpr i
      · have hzero : t.classes.countP RegClass.isSse = 0 := by
          refine countP_eq_zero.mpr fun d hd => ?_
          have := FlatType.classes_isGpr_of_small hv h8 d hd
          cases d <;> simp_all [RegClass.isGpr, RegClass.isSse]
        omega
    have hpair : regPairs L [r] (aaInRegs .x g ((t.size + 7) / 8) t.size) = [(r, 8 * g)] := by
      simp only [regPairs, zipIdx_cons, zipIdx_nil, map_cons, map_nil]
      rw [hoff 0 (by omega)]
      rfl
    rw [hr, hpair] at heq
    obtain ⟨-, rfl⟩ := item_of_singleton heq
    simp only [hgpr, Bool.false_eq_true, if_false] at hlo hhi
    exact .of_general (j := 0) (by omega) (by omega) hlo hhi
  · have h16 := hfits.size
    have htwo : (t.size + 7) / 8 = 2 := by omega
    rw [hr] at heq
    have hpairs : regPairs L [r, r'] (aaInRegs .x g ((t.size + 7) / 8) t.size) =
        [(r, 8 * g), (r', 8 * (g + 1))] := by
      simp only [regPairs, zipIdx_cons, zipIdx_nil, map_cons, map_nil]
      rw [hoff 0 (by omega), hoff (0 + 1) (by omega)]
      rfl
    rw [hpairs] at heq
    rcases item_of_pair heq with ⟨-, rfl⟩ | ⟨rfl, rfl⟩
    · simp only at hlo hhi hal
      by_cases hlow : b < S.env + 8 * (g + 0) + 8
      · exact .of_general (j := 0) (by omega) (by omega) (by omega) hlow
      · refine .of_general (j := 1) (by omega) (by omega) (by omega) ?_
        split_ifs at hhi <;> omega
    · have hfirst := hbefore _ (mem_singleton_self _)
      simp only at hlo hhi hal hfirst
      by_cases hlow : b < S.env + 8 * (g + 1) + 8
      · exact .of_general (j := 1) (by omega) (by omega) hlo hlow
      · -- the upper half of a vector register at an even `x (g + 1)`
        split_ifs at hhi with hx'
        swap
        · omega
        have heven := hal hx'
        have hx : r.1.isXmm = false := by
          rw [Bool.eq_false_iff]
          intro hx
          have := hfirst hx
          omega
        refine .spill (n := g + 2) ?_ (by omega) ⟨by omega, by omega⟩
        have hxregs : (t.xxInRegs c.2).regs = [r.1, r'.1] := by simp [regs, hr]
        have haregs : (aaInRegs .x g ((t.size + 7) / 8) t.size).regs = [.x g, .x (g + 1)] := by
          rw [htwo]
          rfl
        simp only [x2aSpill, hxregs, haregs]
        exact if_pos ⟨hx, hx', by omega⟩

theorem x2aWrite_toStack (hinv : X2aInv S m₀ s) (hfits : t.XxFits c.2)
    (hfit : offset + t.size ≤ S.aaBytes)
    (hw : Written E ((regOffsets t.size
      (xxPieces t.locInfo t.classes c.2.gprcount c.2.ssecount).length
      (xxPieces t.locInfo t.classes c.2.gprcount c.2.ssecount) offset).flatMap (x2aPiece .r10)) s b) :
    X2aWrite S (aaOnStack offset t.size, t.xxInRegs c.2) b := by
  have hpos := t.size_pos
  have hF := ffiAlign_sixteen S.aaBytes
  have hsp := S.sp_aligned
  obtain ⟨before, q, after, heq, hbefore, hal, hlo, hhi⟩ :=
    (written_pieces hinv (by decide) (by rw [hinv.r10]; exact S.sp_aligned) _).mp hw
  rw [hinv.r10] at hlo hhi
  -- general registers only: the words of the argument
  have hwords : (∀ r ∈ xxPieces t.locInfo t.classes c.2.gprcount c.2.ssecount, r.1.isXmm = false) →
      b < S.sp + offset + 8 * (xxPieces t.locInfo t.classes c.2.gprcount c.2.ssecount).length →
      ¬ b < S.sp + ffiAlign S.aaBytes 16 →
      ¬ StaysInFrame S.aaBytes (aaOnStack offset t.size) (t.xxInRegs c.2) := by
    intro hgpr hb hout hstays
    have : offset + 8 * (xxPieces t.locInfo t.classes c.2.gprcount c.2.ssecount).length ≤
      ffiAlign S.aaBytes 16 := hstays hgpr
    omega
  rcases hfits.pieces with ⟨h8, r, hr⟩ | ⟨h8, r, r', hr⟩
  · rw [hr] at heq hwords
    simp only [forall_mem_singleton, length_singleton] at hwords
    obtain ⟨-, rfl⟩ := item_of_singleton heq
    simp only at hlo hhi hal
    refine .slot ⟨by omega, by split_ifs at hhi <;> omega⟩ ?_
    cases hx : r.1.isXmm with
    | false =>
      simp only [hx, Bool.false_eq_true, if_false] at hhi
      by_cases hin : b < S.sp + ffiAlign S.aaBytes 16
      · exact Or.inl hin
      · exact Or.inr (hwords hx hhi hin)
    | true =>
      -- an aligned vector does not cross the end of the frame
      have := hal hx
      simp only [hx, if_true] at hhi
      exact Or.inl (by omega)
  · have h16 := hfits.size
    rw [hr] at heq hwords
    simp only [forall_mem_cons, not_mem_nil, false_imp_iff, implies_true, and_true,
      length_cons, length_nil] at hwords
    simp only [regOffsets, length_cons, length_nil] at heq
    rcases item_of_pair heq with ⟨-, rfl⟩ | ⟨rfl, rfl⟩
    · simp only at hlo hhi hal
      refine .slot ⟨by omega, by split_ifs at hhi <;> omega⟩ (Or.inl ?_)
      cases hx : r.1.isXmm with
      | false =>
        simp only [hx, Bool.false_eq_true, if_false] at hhi
        omega
      | true =>
        have := hal hx
        simp only [hx, if_true] at hhi
        omega
    · have hfirst := hbefore _ (mem_singleton_self _)
      simp only at hlo hhi hal hfirst
      cases hx : r.1.isXmm with
      | false =>
        simp only [hx, Bool.false_eq_true, if_false] at hlo hhi hal
        cases hx' : r'.1.isXmm with
        | false =>
          simp only [hx', Bool.false_eq_true, if_false] at hhi
          refine .slot ⟨by omega, by omega⟩ ?_
          by_cases hin : b < S.sp + ffiAlign S.aaBytes 16
          · exact Or.inl hin
          · exact Or.inr (hwords ⟨hx, hx'⟩ (by omega) hin)
        | true =>
          have := hal hx'
          simp only [hx', if_true] at hhi
          exact .slot ⟨by omega, by omega⟩ (Or.inl (by omega))
      | true =>
        have := hfirst hx
        simp only [hx, if_true] at hlo hhi hal
        cases hx' : r'.1.isXmm with
        | false =>
          simp only [hx', Bool.false_eq_true, if_false] at hhi
          exact .slot ⟨by omega, by omega⟩ (Or.inl (by omega))
        | true =>
          have := hal hx'
          omega

theorem written_words (hinv : X2aInv S m₀ s) {start : ℕ} {bank : ℕ → AReg}
    (hw : Written E (((range n).map (x2aWord L offset bank start)).flatMap Transfer.code) s b) :
    ∃ j < n, S.env + a64Enum2Offset L (some (bank (start + j))) ≤ b ∧
      b < S.env + a64Enum2Offset L (some (bank (start + j))) + 8 := by
  obtain ⟨before, u, after, heq, -, -, hcov⟩ := (written_transfers (x2aWord_based _ _ _ n)).mp hw
  have hu : u ∈ (range n).map (x2aWord L offset bank start) := by simp [heq]
  obtain ⟨j, hj, rfl⟩ := mem_map.mp hu
  refine ⟨j, mem_range.mp hj, ?_⟩
  simpa only [Transfer.Covers, x2aWord, ea, hinv.rdi, Width.bytes] using hcov

theorem written_x2aCopy {aaOffset : ℕ} (dst : ℕ)
    (hdst : (s.gpr .r10 + BitVec.ofInt 64 aaOffset).toNat = dst)
    (hsize : (BitVec.ofNat 64 size).toNat = size) (hw : Written E (x2aCopy size offset aaOffset) s b) :
    dst ≤ b ∧ b < dst + size := by
  simp only [x2aCopy, Written, Insn.step, Insn.Writes, Option.some.injEq, exists_eq_left', false_or,
    or_false, setGpr_gpr, reduceCtorEq, if_false, if_true, hdst, hsize] at hw
  exact hw

variable {code : BridgeCode}

theorem x2aArg_written (hlay : Laid (fun _ => True) S.aaBytes S.xxBytes c p c')
    (hinv : X2aInv S m₀ s) (hcode : x2aArg L p.1 p.2 = some code)
    (hw : Written E code s b) : X2aWrite S p b := by
  obtain ⟨a, x⟩ := p
  obtain ⟨al', xl'⟩ := c'
  obtain ⟨t, al, -, ha, hx, hal⟩ := hlay.place
  have hpos := t.size_pos
  have htop := S.sp_top
  have hfitA : al.stackOffset ≤ S.aaBytes := by
    have h := hlay.aaFits
    rcases hal with hal | hal <;> rw [hal] at h <;> exact h
  simp only at ha hx hcode
  cases ha with
  | vector hv hfit =>
    rename_i elems width
    obtain ⟨h1, h4, hwidth, hsize⟩ := FlatType.vector_spec hv
    cases hx with
    | regs hfits =>
      by_cases hone : width = 8 ∨ elems = 1
      · have hcount : elems = (t.size + 7) / 8 := by
          rw [hsize]
          rcases hone with rfl | rfl <;> omega
        rw [x2aArg_regPairs hfits rfl rfl (teNumOfReg_aaInRegs.trans hcount)] at hcode
        cases hcode
        obtain ⟨before, q, after, heq, -, -, hlo, hhi⟩ :=
          (written_pieces hinv (by decide) (by rw [hinv.rdi]; exact S.env_aligned) _).mp hw
        obtain ⟨j, hj, hq⟩ := mem_regPairs_iff.mp (show q ∈ regPairs L _ _ by rw [heq]; simp)
        have hlt := (List.getElem?_eq_some_iff.mp hj).1
        rw [xxPieces_length, FlatType.classes_length_of_le hfits.size, ← hcount] at hlt
        rw [hinv.rdi, hq, teGetReg_aaInRegs hlt, a64Enum2Offset] at hlo hhi
        exact .of_vector (v := c.1.ssecount + j) (by omega) hlo (by split_ifs at hhi <;> omega)
      · -- two to four members of four bytes
        obtain rfl : width = 4 := by omega
        have hnx := teNumOfReg_xxInRegs hfits
        have hna : (aaInRegs .q c.1.ssecount elems t.size).teNumOfReg = elems := teNumOfReg_aaInRegs
        unfold x2aArg at hcode
        rw [hnx, hna, if_neg (by simp [teIsMem]; omega), if_neg (by simp)] at hcode
        simp only at hcode
        rw [if_neg (by omega), if_pos (by omega)] at hcode
        by_contra hnot
        refine not_written_of_avoids (v := s.gpr) (K := x2aBases) (P := fun b => ¬ X2aWrite S _ b)
          (x2aConcat_avoids hcode fun j hj k hk => not_not.mpr ?_) (fun _ _ => rfl) hnot hw
        rw [hna] at hj
        rw [hinv.rdi, teGetReg_aaInRegs hj, a64Enum2Offset]
        exact .of_vector (v := c.1.ssecount + j) (by omega) (by omega) (by omega)
    | stack =>
      rw [x2aArg_words h1 (by rw [hsize]; rcases hwidth with rfl | rfl <;> omega)] at hcode
      cases hcode
      obtain ⟨j, hj, hlo, hhi⟩ := written_words hinv hw
      exact .of_vector (v := c.1.ssecount + j) (by omega) hlo (by rw [a64Enum2Offset] at hhi; omega)
  | general hv h16 hfit =>
    cases hx with
    | regs hfits =>
      rw [x2aArg_regPairs hfits rfl rfl teNumOfReg_aaInRegs] at hcode
      cases hcode
      exact x2aWrite_general hinv hfits hv hfit hw
    | stack =>
      rw [x2aArg_words (by omega) (by omega)] at hcode
      cases hcode
      obtain ⟨j, hj, hlo, hhi⟩ := written_words hinv hw
      exact .of_general hj (by omega) hlo hhi
  | pointer hv h16 hfit =>
    cases hx with
    | regs hfits => exact absurd hfits.size (by omega)
    | stack =>
      cases hcode
      simp only [Written, Insn.step, Insn.Writes, Option.some.injEq, exists_eq_left', false_or,
        or_false, ea, setGpr_gpr, reduceCtorEq, if_false, hinv.rdi] at hw
      exact .of_general (j := 0) (by omega) (by omega) hw.1 hw.2
  | stackVector hv | stackGeneral hv h16 =>
    cases hx with
    | regs hfits =>
      rw [x2aArg_regOffsets hfits] at hcode
      cases hcode
      exact x2aWrite_toStack hinv hfits hfitA hw
    | stack =>
      rw [x2aArg_copy] at hcode
      cases hcode
      simp only at hfitA
      have hin := written_x2aCopy (S.sp + c.1.memOffset t.alignment)
        (by rw [toNat_add_ofInt _ (by rw [hinv.r10]; omega), hinv.r10])
        (by rw [BitVec.toNat_ofNat, Nat.mod_eq_of_lt (by omega)]) hw
      exact .of_slot hfitA hin.1 hin.2
  | stackPointer hv h16 =>
    cases hx with
    | regs hfits => exact absurd hfits.size (by omega)
    | stack =>
      cases hcode
      simp only [Written, Insn.step, Insn.Writes, Option.some.injEq, exists_eq_left', false_or,
        or_false, ea, setGpr_gpr, reduceCtorEq, if_false, hinv.r10] at hw
      exact .of_slot hfitA hw.1 hw.2

/-- Words that leave the frame overwrite the byte above it. -/
theorem x2aArg_overruns (hlay : Laid (fun _ => True) S.aaBytes S.xxBytes c p c')
    (hinv : X2aInv S m₀ s) (hcode : x2aArg L p.1 p.2 = some code)
    (hout : ¬ StaysInFrame S.aaBytes p.1 p.2) :
    Written E code s (S.sp + ffiAlign S.aaBytes 16) := by
  obtain ⟨a, x⟩ := p
  obtain ⟨al', xl'⟩ := c'
  obtain ⟨t, al, -, ha, hx, hal⟩ := hlay.place
  have hpos := t.size_pos
  have hF := ffiAlign_sixteen S.aaBytes
  have hfitA : al.stackOffset ≤ S.aaBytes := by
    have h := hlay.aaFits
    rcases hal with hal | hal <;> rw [hal] at h <;> exact h
  simp only at ha hx hcode hout
  cases hx with
  | stack => exact absurd trivial hout
  | regs hfits =>
    cases ha with
    | vector hv hfit | general hv h16 hfit => exact absurd trivial hout
    | pointer hv h16 hfit | stackPointer hv h16 => exact absurd hfits.size (by omega)
    | stackVector hv | stackGeneral hv h16 =>
      rw [x2aArg_regOffsets hfits] at hcode
      cases hcode
      simp only [StaysInFrame, Classical.not_imp, not_le] at hout
      obtain ⟨hgpr, hout⟩ := hout
      simp only at hfitA
      rw [written_pieces hinv (by decide) (by rw [hinv.r10]; exact S.sp_aligned), hinv.r10]
      rcases hfits.pieces with ⟨h8, r, hr⟩ | ⟨h8, r, r', hr⟩
      · rw [hr] at hgpr hout ⊢
        have hx := hgpr r mem_cons_self
        simp only [length_singleton] at hout
        refine ⟨[], _, [], rfl, by simp, by simp [hx], ?_⟩
        simp only [hx, Bool.false_eq_true, if_false]
        omega
      · rw [hr] at hgpr hout ⊢
        have hx := hgpr r mem_cons_self
        have hx' := hgpr r' (by simp)
        simp only [length_cons, length_nil] at hout
        refine ⟨[_], _, [], rfl, by simp [hx], by simp [hx'], ?_⟩
        simp only [hx, hx', Bool.false_eq_true, if_false]
        omega

/-- The code of a general and a vector register that go to `x g` and an even `x (g + 1)`. -/
theorem run_spill (E : BridgeExternals) (hinv : X2aInv S m₀ s) {v : ℕ} {r : XReg × LocInfo}
    (hg : (g + 1) % 2 = 0) (hg8 : g < 8) (hv : v < 8) (hx : r.1.isXmm = false) (info : LocInfo) :
    ∃ s', run E ([(r, 8 * g), ((.xmm v, info), 8 * (g + 1))].flatMap (x2aPiece .rdi)) s = some s' ∧
      s'.mem (S.env + 8 * (g + 2)) = s.mem (S.ctx + x64Enum2Offset (.xmm v) + 8) := by
  have henv := S.env_aligned
  have hctx := S.ctx_aligned
  have hsrc : (S.ctx + x64Enum2Offset (.xmm v)) % 16 = 0 := by
    simp only [x64Enum2Offset]
    omega
  have hdst : (S.env + 8 * (g + 1)) % 16 = 0 := by omega
  have hxmm : (XReg.xmm v).isXmm = true := rfl
  simp only [flatMap_cons, flatMap_nil, append_nil, x2aPiece, hx, hxmm,
    Bool.false_eq_true, if_false, if_true, cons_append, nil_append, run_cons, run_nil,
    Insn.step, bind_some, ea, setGpr_gpr, setGpr_mem, setMem_gpr,
    setMem_mem, setXmm_gpr, setXmm_mem, setXmm_xmm, reduceCtorEq, hinv.rdi,
    hinv.rsi, hsrc, hdst]
  refine ⟨_, rfl, ?_⟩
  rw [setMem_mem, show S.env + 8 * (g + 2) = S.env + 8 * (g + 1) + 8 by omega,
    Mem.write_inside _ _ _ _ 8 (by norm_num)]
  -- the first store is in the CPU state
  refine Mem.storeWord_outside _ _ _ _ _ ?_
  have := (S.ctx_apart (x64Enum2Offset (.xmm v) + 8) (by simp only [x64Enum2Offset]; omega)).1
  have hz := L.zregs_ge
  unfold EnvLayout.size at this
  omega

theorem x2aArg_spills (hlay : Laid (fun _ => True) S.aaBytes S.xxBytes c p c')
    (hinv : X2aInv S m₀ s) (hcode : x2aArg L p.1 p.2 = some code)
    (hspill : x2aSpill p.1 p.2 = some n) :
    n < 8 ∧ ∃ v < 8, p.2.teGetReg 1 = some (.xmm v) ∧ ∃ s', run E code s = some s' ∧
      s'.mem (S.env + 8 * n) = s.mem (S.ctx + x64Enum2Offset (.xmm v) + 8) := by
  obtain ⟨a, x⟩ := p
  obtain ⟨al', xl'⟩ := c'
  obtain ⟨t, al, -, ha, hx, hal⟩ := hlay.place
  have hpos := t.size_pos
  simp only at ha hx hcode hspill
  cases hx with
  | stack => cases hspill
  | regs hfits =>
    rcases hfits.pieces with ⟨h8, r, hr⟩ | ⟨h8, r, r', hr⟩
    · simp [x2aSpill, regs, hr] at hspill
    have hxregs : (t.xxInRegs c.2).regs = [r.1, r'.1] := by simp [regs, hr]
    have h16 := hfits.size
    cases ha with
    | vector hv hfit =>
      rename_i elems width
      simp only [x2aSpill, hxregs] at hspill
      split at hspill
      · rename_i k _ haregs
        have hmem : AReg.x k ∈ (aaInRegs .q c.1.ssecount elems t.size).regs := by
          rw [haregs]
          exact mem_cons_of_mem _ mem_cons_self
        obtain ⟨i, -, hi⟩ := mem_regs_aaInRegs hmem
        cases hi
      · cases hspill
    | general hv _ hfit =>
      have htwo : (t.size + 7) / 8 = 2 := by omega
      have haregs : (aaInRegs .x c.1.gprcount ((t.size + 7) / 8) t.size).regs =
          [.x c.1.gprcount, .x (c.1.gprcount + 1)] := by
        rw [htwo]
        rfl
      simp only [x2aSpill, hxregs, haregs, ite_none_right_eq_some, Option.some.injEq] at hspill
      obtain ⟨⟨hx, hx', heven⟩, rfl⟩ := hspill
      rw [x2aArg_regPairs hfits rfl rfl teNumOfReg_aaInRegs, hr] at hcode
      cases hcode
      have hmem : r' ∈ xxPieces t.locInfo t.classes c.2.gprcount c.2.ssecount := by simp [hr]
      rcases mem_xxPieces hmem with ⟨i, -, -, rfl⟩ | ⟨v, -, hv8, rfl⟩
      · simp [isXmm_xxGpr] at hx'
      · have hsse := hfits.sse
        refine ⟨by omega, v, by omega, by rw [teGetReg, hxregs]; rfl, ?_⟩
        have hpairs : regPairs L [r, (.xmm v, .full)]
            (aaInRegs .x c.1.gprcount ((t.size + 7) / 8) t.size) =
            [(r, 8 * c.1.gprcount), ((.xmm v, .full), 8 * (c.1.gprcount + 1))] := by
          rw [htwo]
          rfl
        rw [hpairs]
        exact run_spill E hinv heven (by omega) (by omega) hx .full
    | pointer hv h16 hfit | stackPointer hv h16 => exact absurd hfits.size (by omega)
    | stackVector hv | stackGeneral hv _ => simp [x2aSpill, regs] at hspill

end Argument

section Loop
variable {L : EnvLayout} {E : BridgeExternals} {S : X2aSite L} {m₀ : Mem} {c c' : Counters}
  {ps : List Placement} {s : State}

/-- The code of the arguments before one of them, its own code and the rest. -/
theorem x2aArgs_reach {before after : List Placement} {p : Placement}
    (hchain : Chain (x2aSteps E S m₀).Lay c (before ++ p :: after) c') (hinv : X2aInv S m₀ s)
    (hbefore : ∀ q ∈ before, PiecesAligned L q.1 q.2) {code : BridgeCode}
    (hcode : x2aArgs L ((before ++ p :: after).map Prod.fst) ((before ++ p :: after).map Prod.snd) =
      some code) :
    ∃ cs cp rest c₁ c₂ t, code = cs ++ (cp ++ rest) ∧ run E cs s = some t ∧
      Laid (fun _ => True) S.aaBytes S.xxBytes c₁ p c₂ ∧ X2aInv S m₀ t ∧
      x2aArg L p.1 p.2 = some cp := by
  induction before generalizing c s code with
  | nil =>
    cases hchain with
    | cons head tail =>
      obtain ⟨cp, hcp, hcode⟩ := bind_eq_some_iff.mp hcode
      obtain ⟨rest, -, rfl⟩ := map_eq_some_iff.mp hcode
      exact ⟨[], cp, rest, _, _, s, rfl, rfl, head, hinv, hcp⟩
  | cons q before ih =>
    cases hchain with
    | cons head tail =>
      obtain ⟨cq, hcq, hcode⟩ := bind_eq_some_iff.mp hcode
      obtain ⟨rest, hrest, rfl⟩ := map_eq_some_iff.mp hcode
      obtain ⟨hq, hbefore⟩ := forall_mem_cons.mp hbefore
      obtain ⟨cq', hcq', halign, hspec⟩ := x2aArg_spec E head hinv
      obtain rfl := Option.some.inj (hcq.symm.trans hcq')
      obtain ⟨u, hu⟩ := ne_none_iff_exists'.mp (halign.mpr hq)
      obtain ⟨cs, cp, rest', c₁, c₂, t, rfl, hrun, h⟩ := ih tail ((hspec u hu).inv hinv) hbefore hrest
      refine ⟨cq ++ cs, cp, rest', c₁, c₂, t, ?_, (run_append_some E hu).trans hrun, h⟩
      rw [append_assoc]

/-- What the loop writes is written by one argument's code, and the arguments before it are aligned. -/
theorem x2aArgs_written (hchain : Chain (x2aSteps E S m₀).Lay c ps c') (hinv : X2aInv S m₀ s)
    {code : BridgeCode} (hcode : x2aArgs L (ps.map Prod.fst) (ps.map Prod.snd) = some code) {b : ℕ}
    (hw : Written E code s b) : ∃ before p after, ps = before ++ p :: after ∧
      (∀ q ∈ before, PiecesAligned L q.1 q.2) ∧ X2aWrite S p b := by
  induction hchain generalizing s code with
  | nil c =>
    cases hcode
    exact hw.elim
  | cons head tail ih =>
    rename_i c c₁ c₂ p ps
    obtain ⟨cp, hcp, hcode⟩ := bind_eq_some_iff.mp hcode
    obtain ⟨rest, hrest, rfl⟩ := map_eq_some_iff.mp hcode
    rcases written_append.mp hw with hw | ⟨u, hu, hw⟩
    · exact ⟨[], p, ps, rfl, by simp, x2aArg_written head hinv hcp hw⟩
    · obtain ⟨cp', hcp', halign, hspec⟩ := x2aArg_spec E head hinv
      obtain rfl := Option.some.inj (hcp.symm.trans hcp')
      have hp := halign.mp (by rw [hu]; exact some_ne_none u)
      obtain ⟨before, q, after, rfl, hbefore, hq⟩ := ih ((hspec u hu).inv hinv) hrest hw
      exact ⟨p :: before, q, after, rfl, forall_mem_cons.mpr ⟨hp, hbefore⟩, hq⟩

end Loop

end Iqemu64
