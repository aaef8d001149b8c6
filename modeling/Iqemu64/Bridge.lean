import Iqemu64.ArgViews
import Iqemu64.X64

/-!
# Parts of the emitted bridges

What the code generators of both directions share: the functions and data that emitted code refers
to, the register numbering, the widening of an argument in `rax`, and the offsets at which an argument
in registers lies on the other side's stack.
-/

namespace Iqemu64
open ByteMemory X64 List

inductive BridgeFn where
  | callbackQueryAndAddTrampoline
  | tcgCopyReplaceBlocks
  | tcgRegisterStructWithFnPtr
  | tcgRegisterCallbackAsType
  deriving DecidableEq, Repr

/-- Data that emitted code takes the address of. The result stands for argument number -1. -/
inductive BridgeSym where
  | fakeName (arg : Option ℕ)
  | str
  | stfpOffsetList (arg : Option ℕ)
  deriving DecidableEq, Repr

abbrev BridgeCode : Type := List (Insn BridgeFn BridgeSym)

abbrev BridgeExternals : Type := Externals BridgeFn BridgeSym

def x64Enum2Reg : XReg → Gpr ⊕ ℕ
  | .rax | .eax | .ax | .al => .inl .rax
  | .rdi | .edi => .inl .rdi
  | .rsi | .esi => .inl .rsi
  | .rdx | .edx | .dl => .inl .rdx
  | .rcx | .ecx => .inl .rcx
  | .r8 | .r8d => .inl .r8
  | .r9 | .r9d => .inl .r9
  | .xmm n => .inr n

theorem isXmm_eq_isRight (x : XReg) : x.isXmm = (x64Enum2Reg x).isRight := by cases x <;> rfl

def tcgExtendArgInRaxByLocInfo : LocInfo → BridgeCode
  | .sext8to32 => [.movx true 8 .rax]
  | .sext16to32 => [.movx true 16 .rax]
  | .zext8to32 => [.movx false 8 .rax]
  | .zext16to32 => [.movx false 16 .rax]
  | _ => []

def regPairs (L : EnvLayout) (xs : List (XReg × LocInfo)) (aa : ABIArgInfo AReg) :
    List ((XReg × LocInfo) × ℕ) :=
  xs.zipIdx.map fun (p, j) => (p, a64Enum2Offset L (aa.teGetReg j))

def regOffsets (size : ℕ) (n : ℕ) : List (XReg × LocInfo) → ℕ → List ((XReg × LocInfo) × ℕ)
  | [], _ => []
  | p :: ps, offset => (p, offset) :: regOffsets size n ps (offset + if p.1.isXmm then size / n else 8)

theorem regOffsets_map_fst (size n : ℕ) (ps : List (XReg × LocInfo)) (offset : ℕ) :
    (regOffsets size n ps offset).map Prod.fst = ps := by
  induction ps generalizing offset with
  | nil => rfl
  | cons p ps ih => simp [regOffsets, ih]

theorem regOffsets_length (size n : ℕ) (ps : List (XReg × LocInfo)) (offset : ℕ) :
    (regOffsets size n ps offset).length = ps.length := by
  rw [← length_map (f := Prod.fst), regOffsets_map_fst]

def AReg.isOddGeneral : AReg → Bool
  | .x n | .w n => n % 2 = 1
  | _ => false

/-- The vector registers of an argument are filled from aligned places: not from an odd general
register, nor from a stack slot at an odd eightbyte. -/
def VectorsAligned (a : ABIArgInfo AReg) (x : ABIArgInfo XReg) : Prop :=
  match x.loc, a.loc with
  | .regs _, .regs _ => ∀ q ∈ x.regs.zip a.regs, q.1.isXmm = true → q.2.isOddGeneral = false
  | .regs _, .mem offset _ => ∀ q ∈ x.regs.zipIdx, q.1.isXmm = true → (offset + 8 * q.2) % 16 = 0
  | .mem _ _, _ => True

instance (a : ABIArgInfo AReg) (x : ABIArgInfo XReg) : Decidable (VectorsAligned a x) := by
  unfold VectorsAligned
  split <;> infer_instance

theorem mem_zip_iff {α β : Type} {l : List α} {l' : List β} {q : α × β} :
    q ∈ l.zip l' ↔ ∃ j : ℕ, l[j]? = some q.1 ∧ l'[j]? = some q.2 := by
  simp only [mem_iff_getElem?, getElem?_zip_eq_some]

/-- Two vector registers are never both aligned on a stack. -/
theorem regOffsets_aligned_iff {size : ℕ} (offset : ℕ) {xs : List (XReg × LocInfo)}
    (hlen : xs.length = (size + 7) / 8) (h16 : size ≤ 16) :
    (∀ q ∈ regOffsets size xs.length xs offset, q.1.1.isXmm = true → q.2 % 16 = 0) ↔
      ∀ q ∈ (xs.map Prod.fst).zipIdx, q.1.isXmm = true → (offset + 8 * q.2) % 16 = 0 := by
  match xs, hlen with
  | [], hlen => simp [regOffsets]
  | [p], hlen => simp [regOffsets]
  | [p, p'], hlen =>
    simp only [length_cons, length_nil] at hlen
    simp only [regOffsets, length_cons, length_nil, forall_mem_cons, map_cons,
      map_nil, zipIdx_cons, zipIdx_nil, not_mem_nil, false_imp_iff, implies_true,
      and_true]
    split_ifs with hp
    · constructor <;> rintro ⟨h₀, h₁⟩ <;> refine ⟨h₀, fun hx => ?_⟩
      · have := h₀ hp
        have := h₁ hx
        omega
      · have := h₀ hp
        have := h₁ hx
        omega
    · exact Iff.rfl
  | _ :: _ :: _ :: _, hlen =>
    simp only [length_cons] at hlen
    omega

def PiecesAligned (L : EnvLayout) (a : ABIArgInfo AReg) (x : ABIArgInfo XReg) : Prop :=
  match x.loc, a.loc with
  | .regs xs, .regs _ => x.teNumOfReg = a.teNumOfReg →
      ∀ q ∈ regPairs L xs a, q.1.1.isXmm = true → q.2 % 16 = 0
  | .regs xs, .mem offset _ =>
      ∀ q ∈ regOffsets a.size xs.length xs offset, q.1.1.isXmm = true → q.2 % 16 = 0
  | .mem _ _, _ => True

section Aligned
variable {L : EnvLayout}

theorem mem_regPairs_iff {xs : List (XReg × LocInfo)} {a : ABIArgInfo AReg}
    {q : (XReg × LocInfo) × ℕ} : q ∈ regPairs L xs a ↔
      ∃ j, xs[j]? = some q.1 ∧ q.2 = a64Enum2Offset L (a.teGetReg j) := by
  constructor
  · intro hq
    obtain ⟨⟨p, j⟩, hp, rfl⟩ := mem_map.mp hq
    exact ⟨j, mem_zipIdx_iff_getElem?.mp hp, rfl⟩
  · rintro ⟨j, hp, hq⟩
    refine mem_map.mpr ⟨(q.1, j), mem_zipIdx_iff_getElem?.mpr hp, ?_⟩
    exact Prod.ext rfl hq.symm

theorem piecesAligned_iff {t : FlatType} {al al' : AaAlloc} {xl xl' : XxAlloc} {a : ABIArgInfo AReg}
    {x : ABIArgInfo XReg} (ha : AaPlaced t al a al') (hx : XxPlaced t xl x xl') :
    PiecesAligned L a x ↔ VectorsAligned a x := by
  have hz := L.zregs_aligned
  cases hx with
  | stack => exact Iff.rfl
  | regs hfits =>
    have hlen := xxPieces_length t.locInfo t.classes xl.gprcount xl.ssecount
    rw [FlatType.classes_length_of_le hfits.size] at hlen
    cases ha with
    | vector hv hfit =>
      have hwidth := (FlatType.vector_spec hv).2.2.1
      have hsize := (FlatType.vector_spec hv).2.2.2
      refine iff_of_true (fun heq q hq _ => ?_) fun q hq _ => ?_
      · obtain ⟨j, hj, hq⟩ := mem_regPairs_iff.mp hq
        have hlt := (List.getElem?_eq_some_iff.mp hj).1
        rw [hq, teGetReg_aaInRegs (by rcases hwidth with rfl | rfl <;> omega), a64Enum2Offset]
        omega
      · obtain ⟨i, -, hi⟩ := mem_regs_aaInRegs (of_mem_zip hq).2
        rw [hi]
        rfl
    | general hv h16 hfit =>
      constructor
      · intro h q hq hr
        obtain ⟨j, hj, hg⟩ := mem_zip_iff.mp hq
        obtain ⟨p, hp, hpr⟩ : ∃ p, (xxPieces t.locInfo t.classes xl.gprcount xl.ssecount)[j]? =
            some p ∧ p.1 = q.1 := by simpa [ABIArgInfo.regs] using hj
        have hlt := (List.getElem?_eq_some_iff.mp hp).1
        have hreg : (aaInRegs .x al.gprcount ((t.size + 7) / 8) t.size).teGetReg j =
            some (.x (al.gprcount + j)) := teGetReg_aaInRegs (by omega)
        have hmul := h (by rw [teNumOfReg_xxInRegs hfits, teNumOfReg_aaInRegs]) (p, _)
          (mem_regPairs_iff.mpr ⟨j, hp, rfl⟩) (by rw [hpr]; exact hr)
        rw [hreg] at hmul
        rw [Option.some.inj (hg.symm.trans hreg)]
        simp only at hmul
        simp only [AReg.isOddGeneral, decide_eq_false_iff_not]
        omega
      · intro h _ q hq hr
        obtain ⟨j, hj, hq⟩ := mem_regPairs_iff.mp hq
        have hlt := (List.getElem?_eq_some_iff.mp hj).1
        have heven := h (q.1.1, .x (al.gprcount + j)) (mem_zip_iff.mpr ⟨j,
          by simp [ABIArgInfo.regs, hj], teGetReg_aaInRegs (by omega)⟩) hr
        simp only [AReg.isOddGeneral, decide_eq_false_iff_not] at heven
        rw [hq, teGetReg_aaInRegs (by omega), a64Enum2Offset]
        omega
    | stackVector hv | stackGeneral hv h16 =>
      have h := regOffsets_aligned_iff (al.memOffset t.alignment) hlen hfits.size
      exact h
    | pointer hv h16 hfit | stackPointer hv h16 => exact absurd hfits.size (by omega)

end Aligned

def vectorOffset (L : EnvLayout) (v : ℕ) : ℕ := L.zregs + 256 * v

theorem offset_aaInRegs {L : EnvLayout} {v elems : ℕ} (size : ℕ) {j : ℕ} (hj : j < elems) :
    a64Enum2Offset L ((aaInRegs .q v elems size).teGetReg j) = vectorOffset L (v + j) ∧
      ((aaInRegs .q v elems size).teGetReg j).elim 0 AReg.code = 17 + (v + j) := by
  rw [teGetReg_aaInRegs hj]
  exact ⟨rfl, rfl⟩

def hostReg (s : State) (x : XReg) (k : ℕ) : UInt8 :=
  match x64Enum2Reg x with
  | .inl r => s.gprByte r k
  | .inr n => s.xmm n k

end Iqemu64
