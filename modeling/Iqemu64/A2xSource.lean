import Iqemu64.A2xArg

/-!
# Where the guest-to-host code reads an argument

For most placements the code reads each byte of an argument from where the guest has it. It does not
in two cases: registers filled from the guest stack when the second one is not eight bytes further on,
and stack slots filled from single-precision registers, which get eight bytes each.
-/

namespace Iqemu64
open ByteMemory List FlatType

/-- Each eight bytes of the argument are read from where they are: a first vector register stands for
half of the sixteen bytes on the stack, and stack slots are not filled from several single-precision
registers. -/
def a2xStrided (a : ABIArgInfo AReg) (x : ABIArgInfo XReg) : Prop :=
  match x.loc, a.loc with
  | .regs _, .mem _ _ =>
    ∀ r ∈ x.teGetReg 0, r.isXmm = true → x.teNumOfReg ≤ 1 ∨ a.size = 16
  | .mem _ _, .regs _ => a.indirect = true ∨ a.teNumOfReg ≤ 1 ∨ 4 * a.teNumOfReg < x.size
  | _, _ => True

instance (a : ABIArgInfo AReg) (x : ABIArgInfo XReg) : Decidable (a2xStrided a x) := by
  unfold a2xStrided
  refine ArgLoc.casesOn x.loc (fun _ => ?_) fun _ _ => ?_
  all_goals refine ArgLoc.casesOn a.loc (fun _ => ?_) (fun _ _ => ?_) <;> infer_instance

section Source
variable {L : EnvLayout} {env sp : ℕ} {m : Mem} {t : FlatType} {al al' : AaAlloc}
  {xl xl' : XxAlloc} {a : ABIArgInfo AReg} {x : ABIArgInfo XReg} {elems width : ℕ}

/-- Vector registers with eight bytes in each, or a single one. -/
theorem vector_words (hv : t.vector = some (elems, width)) (h : width = 8 ∨ elems = 1) (v : ℕ) :
    ∀ k < t.size, env + a64Enum2Offset L ((aaInRegs .q v elems t.size).teGetReg (k / 8)) + k % 8 =
      (aaInRegs .q v elems t.size).guestAddr L env sp m k := by
  obtain ⟨h1, -, hwidth, hsize⟩ := vector_spec hv
  intro k hk
  rw [hsize] at hk ⊢
  rw [guestAddr_vector (by omega) hk, teGetReg_aaInRegs (by rcases h with rfl | rfl <;> omega),
    a64Enum2Offset]
  rcases h with rfl | rfl
  · rfl
  · rw [Nat.div_eq_of_lt (show k < 8 by omega), Nat.div_eq_of_lt (show k < width by omega),
      Nat.mod_eq_of_lt (show k < 8 by omega), Nat.mod_eq_of_lt (show k < width by omega)]

theorem general_words {g k : ℕ} (hk : k < t.size) :
    env + a64Enum2Offset L ((aaInRegs .x g ((t.size + 7) / 8) t.size).teGetReg (k / 8)) + k % 8 =
      (aaInRegs .x g ((t.size + 7) / 8) t.size).guestAddr L env sp m k := by
  rw [guestAddr_general (by omega), teGetReg_aaInRegs (by omega), a64Enum2Offset]
  omega

/-- The fifth byte of two or more single-precision members lies in the second register. -/
theorem vector_words_ne (hv : t.vector = some (elems, 4)) (h : 2 ≤ elems) (v : ℕ) :
    env + a64Enum2Offset L ((aaInRegs .q v elems t.size).teGetReg (4 / 8)) + 4 % 8 ≠
      (aaInRegs .q v elems t.size).guestAddr L env sp m 4 := by
  obtain ⟨-, -, -, hsize⟩ := vector_spec hv
  rw [hsize, guestAddr_vector (by norm_num) (by omega), teGetReg_aaInRegs (by omega), a64Enum2Offset]
  omega

theorem a2xSource_stack {offset k : ℕ} :
    a2xSource L env sp m (aaOnStack offset t.size) (t.xxInRegs xl) k =
      sp + ((regOffsets t.size (xxPieces t.locInfo t.classes xl.gprcount xl.ssecount).length
        (xxPieces t.locInfo t.classes xl.gprcount xl.ssecount) offset)[k / 8]?).elim 0 Prod.snd +
        k % 8 := rfl

/-- Whatever the strides, the code stays inside a stack argument. -/
theorem regOffsets_lt {size offset j i : ℕ} {xs : List (XReg × LocInfo)} {q : (XReg × LocInfo) × ℕ}
    (hlen : xs.length = (size + 7) / 8) (h16 : size ≤ 16)
    (hq : (regOffsets size xs.length xs offset)[j]? = some q) (hi : 8 * j + i < size) :
    offset ≤ q.2 ∧ q.2 + i < offset + size := by
  obtain _ | ⟨p, _ | ⟨p', _ | ⟨p₂, xs⟩⟩⟩ := xs
  · simp [regOffsets] at hq
  · cases j with
    | zero =>
      cases hq
      simp only
      omega
    | succ j => simp [regOffsets] at hq
  · obtain _ | _ | j := j
    · cases hq
      simp only
      omega
    · cases hq
      simp only [length_cons, length_nil]
      split_ifs <;> omega
    · simp [regOffsets] at hq
  · simp only [length_cons] at hlen
    omega

theorem regOffsets_strided_iff {size : ℕ} (offset : ℕ) {xs : List (XReg × LocInfo)} (hpos : 0 < size)
    (hlen : xs.length = (size + 7) / 8) (h16 : size ≤ 16) :
    (∀ r ∈ (xs.map Prod.fst)[0]?, r.isXmm = true → xs.length ≤ 1 ∨ size = 16) ↔
      ∀ k < size, ((regOffsets size xs.length xs offset)[k / 8]?).elim 0 Prod.snd + k % 8 =
        offset + k := by
  match xs, hlen with
  | [], hlen =>
    simp only [length_nil] at hlen
    omega
  | [p], hlen =>
    refine iff_of_true (fun _ _ _ => Or.inl le_rfl) fun k hk => ?_
    simp only [length_singleton] at hlen
    rw [Nat.div_eq_of_lt (show k < 8 by omega)]
    change offset + k % 8 = offset + k
    omega
  | [p, p'], hlen =>
    simp only [length_cons, length_nil] at hlen ⊢
    have hsnd : ∀ k, 8 ≤ k → k < size → ((regOffsets size (0 + 1 + 1) [p, p'] offset)[k / 8]?).elim 0
        Prod.snd = offset + if p.1.isXmm then size / 2 else 8 := by
      intro k h8 hk
      rw [show k / 8 = 1 by omega]
      rfl
    constructor
    · intro h k hk
      by_cases h8 : k < 8
      · rw [Nat.div_eq_of_lt h8]
        change offset + k % 8 = offset + k
        omega
      · rw [hsnd k (by omega) hk]
        split_ifs with hp
        · have := h p.1 rfl hp
          omega
        · omega
    · intro h r hr hx
      obtain rfl : p.1 = r := Option.some.inj hr
      have := h 8 (by omega)
      rw [hsnd 8 le_rfl (by omega), if_pos hx] at this
      omega
  | _ :: _ :: _ :: _, hlen =>
    simp only [length_cons] at hlen
    omega

theorem a2xStrided_stack_iff (hfits : t.XxFits xl) (offset : ℕ) :
    a2xStrided (aaOnStack offset t.size) (t.xxInRegs xl) ↔
      ∀ k < t.size, a2xSource L env sp m (aaOnStack offset t.size) (t.xxInRegs xl) k =
        sp + offset + k := by
  have hlen := xxPieces_length t.locInfo t.classes xl.gprcount xl.ssecount
  rw [classes_length_of_le hfits.size] at hlen
  have h := regOffsets_strided_iff offset t.size_pos hlen hfits.size
  simp only [a2xSource_stack, Nat.add_assoc, Nat.add_left_cancel_iff]
  rw [← h]
  simp only [a2xStrided, ABIArgInfo.teGetReg, ABIArgInfo.teNumOfReg, ABIArgInfo.regs,
    length_map]

/-- The code reads an argument from its place exactly when the strides fit. -/
theorem a2xStrided_iff (ha : AaPlaced t al a al') (hx : XxPlaced t xl x xl') :
    a2xStrided a x ↔ ∀ k < t.size, a2xSource L env sp m a x k = a.guestAddr L env sp m k := by
  have hpos := t.size_pos
  cases ha with
  | vector hv hfit =>
    rename_i elems width
    obtain ⟨h1, h4, hwidth, hsize⟩ := vector_spec hv
    cases hx with
    | regs hfits =>
      simp only [a2xStrided, true_iff]
      intro k hk
      simp only [a2xSource, teNumOfReg_aaInRegs, teNumOfReg_xxInRegs hfits]
      split_ifs with heq
      · refine vector_words hv ?_ al.ssecount k hk
        rcases hwidth with rfl | rfl
        · right
          omega
        · exact Or.inl rfl
      · rfl
    | stack =>
      simp only [a2xStrided, a2xSource, teNumOfReg_aaInRegs, Bool.false_eq_true, false_or]
      by_cases hone : width = 8 ∨ elems = 1
      · refine iff_of_true ?_ (vector_words hv hone al.ssecount)
        rcases hone with rfl | rfl <;> omega
      · obtain rfl : width = 4 := by omega
        refine iff_of_false (by omega) fun h => ?_
        exact vector_words_ne hv (by omega) al.ssecount (h 4 (by omega))
  | general hv h16 hfit =>
    cases hx with
    | regs hfits =>
      simp only [a2xStrided, true_iff]
      intro k hk
      simp only [a2xSource, teNumOfReg_aaInRegs, teNumOfReg_xxInRegs hfits, if_true]
      exact general_words hk
    | stack =>
      simp only [a2xStrided, a2xSource, teNumOfReg_aaInRegs, Bool.false_eq_true, false_or]
      exact iff_of_true (by omega) fun k hk => general_words hk
  | pointer hv h16 hfit =>
    cases hx with
    | regs hfits => exact absurd hfits.size (by omega)
    | stack => simp [a2xStrided, a2xSource]
  | stackVector hv =>
    cases hx with
    | regs hfits => exact a2xStrided_stack_iff hfits _
    | stack => simp [a2xStrided, a2xSource]
  | stackGeneral hv h16 =>
    cases hx with
    | regs hfits => exact a2xStrided_stack_iff hfits _
    | stack => simp [a2xStrided, a2xSource]
  | stackPointer hv h16 =>
    cases hx with
    | regs hfits => exact absurd hfits.size (by omega)
    | stack => simp [a2xStrided, a2xSource]

theorem a2xSource_congr {m' : Mem} (h : a.indirect = true →
    ∀ k < 8, m' (a.slotAddr L env sp + k) = m (a.slotAddr L env sp + k)) :
    a2xSource L env sp m' a x = a2xSource L env sp m a x := by
  funext k
  unfold a2xSource
  rw [guestAddr_congr h]

theorem a2xSource_pointer (ha : AaPlaced t al a al') (hx : XxPlaced t xl x xl')
    (hind : a.indirect = true) : a2xSource L env sp m a x = a.guestAddr L env sp m := by
  cases hx with
  | stack =>
    funext k
    simp only [a2xSource, hind]
  | regs hfits =>
    have h16 := hfits.size
    cases ha with
    | pointer hv hlt | stackPointer hv hlt => omega
    | _ => cases hind

/-- Bytes of an argument that never hold a pointer to another one: in vector registers from the
counter on, or in the stack slot of the argument. -/
def PlainByte (L : EnvLayout) (env sp : ℕ) (al : AaAlloc) (a : ABIArgInfo AReg) (addr : ℕ) : Prop :=
  (∃ v, al.ssecount ≤ v ∧ v < 8 ∧ ∃ o < 8, addr = env + (L.zregs + 256 * v) + o) ∨
    ∃ offset info, a.loc = .mem offset info ∧ ∃ o < a.size, addr = sp + (offset + o)

def OwnByte (L : EnvLayout) (env sp : ℕ) (al : AaAlloc) (a : ABIArgInfo AReg) (addr : ℕ) : Prop :=
  (∃ o < 264, addr = env + o) ∨ PlainByte L env sp al a addr

theorem plainByte_vector (hv : t.vector = some (elems, width)) (hfit : al.ssecount + elems ≤ 8) {k : ℕ}
    (hk : k < t.size) : PlainByte L env sp al (aaInRegs .q al.ssecount elems t.size)
      ((aaInRegs .q al.ssecount elems t.size).guestAddr L env sp m k) := by
  obtain ⟨-, -, hwidth, hsize⟩ := vector_spec hv
  rw [hsize] at hk ⊢
  rw [guestAddr_vector (by omega) hk]
  refine Or.inl ⟨_, ?_, ?_, k % width, ?_, rfl⟩ <;> rcases hwidth with rfl | rfl <;> omega

theorem guestAddr_own (ha : AaPlaced t al a al') (hind : a.indirect = false) {k : ℕ}
    (hk : k < t.size) : OwnByte L env sp al a (a.guestAddr L env sp m k) := by
  cases ha with
  | vector hv hfit => exact Or.inr (plainByte_vector hv hfit hk)
  | general hv h16 hfit =>
    rw [guestAddr_general (by omega), Nat.add_assoc]
    exact Or.inl ⟨_, by omega, rfl⟩
  | stackVector hv | stackGeneral hv h16 =>
    exact Or.inr (Or.inr ⟨_, _, rfl, k, hk, Nat.add_assoc _ _ _⟩)
  | pointer hv h16 hfit | stackPointer hv h16 => cases hind

/-- An argument that is read with the wrong strides has only plain bytes. -/
theorem guestAddr_plain (ha : AaPlaced t al a al') (hx : XxPlaced t xl x xl')
    (hns : ¬ a2xStrided a x) {k : ℕ} (hk : k < t.size) :
    a.indirect = false ∧ PlainByte L env sp al a (a.guestAddr L env sp m k) := by
  cases ha with
  | vector hv hfit => exact ⟨rfl, plainByte_vector hv hfit hk⟩
  | stackVector hv | stackGeneral hv h16 =>
    exact ⟨rfl, Or.inr ⟨_, _, rfl, k, hk, Nat.add_assoc _ _ _⟩⟩
  | general hv h16 hfit =>
    refine absurd ?_ hns
    cases hx with
    | regs hfits => trivial
    | stack =>
      simp only [a2xStrided, teNumOfReg_aaInRegs, Bool.false_eq_true, false_or]
      omega
  | pointer hv h16 hfit | stackPointer hv h16 =>
    refine absurd ?_ hns
    cases hx with
    | regs hfits => exact absurd hfits.size (by omega)
    | stack => simp [a2xStrided]

theorem a2xSource_own (ha : AaPlaced t al a al') (hx : XxPlaced t xl x xl')
    (hind : a.indirect = false) {k : ℕ} (hk : k < t.size) :
    OwnByte L env sp al a (a2xSource L env sp m a x k) := by
  have hguest : OwnByte L env sp al a (a.guestAddr L env sp m k) := guestAddr_own ha hind hk
  cases ha with
  | vector hv hfit =>
    rename_i elems width
    obtain ⟨h1, -, hwidth, hsize⟩ := vector_spec hv
    have hword : OwnByte L env sp al (aaInRegs .q al.ssecount elems t.size)
        (env + a64Enum2Offset L ((aaInRegs .q al.ssecount elems t.size).teGetReg (k / 8)) +
          k % 8) := by
      have hj : k / 8 < elems := by rcases hwidth with rfl | rfl <;> omega
      rw [teGetReg_aaInRegs hj]
      exact Or.inr (Or.inl ⟨_, Nat.le_add_right _ _, by omega, k % 8, by omega, rfl⟩)
    cases hx with
    | regs hfits =>
      simp only [a2xSource]
      split_ifs
      · exact hword
      · exact hguest
    | stack => exact hword
  | general hv h16 hfit =>
    cases hx with
    | regs hfits =>
      simp only [a2xSource, teNumOfReg_aaInRegs, teNumOfReg_xxInRegs hfits, if_true]
      rw [general_words hk]
      exact hguest
    | stack =>
      simp only [a2xSource]
      rw [general_words hk]
      exact hguest
  | stackVector hv | stackGeneral hv h16 =>
    cases hx with
    | stack => exact hguest
    | regs hfits =>
      have hlen := regOffsets_length t.size
        (xxPieces t.locInfo t.classes xl.gprcount xl.ssecount).length
        (xxPieces t.locInfo t.classes xl.gprcount xl.ssecount) (al.memOffset t.alignment)
      have hlen' := xxPieces_length t.locInfo t.classes xl.gprcount xl.ssecount
      rw [classes_length_of_le hfits.size] at hlen'
      obtain ⟨q, hq⟩ : ∃ q, (regOffsets t.size
          (xxPieces t.locInfo t.classes xl.gprcount xl.ssecount).length
          (xxPieces t.locInfo t.classes xl.gprcount xl.ssecount)
          (al.memOffset t.alignment))[k / 8]? = some q := ⟨_, getElem?_eq_getElem (by omega)⟩
      obtain ⟨hlo, hhi⟩ := regOffsets_lt (i := k % 8) hlen' hfits.size hq (by omega)
      rw [a2xSource_stack, hq, Option.elim_some]
      refine Or.inr (Or.inr ⟨_, _, rfl, q.2 - al.memOffset t.alignment + k % 8, ?_, ?_⟩)
      · change _ < t.size
        omega
      · omega
  | pointer hv h16 hfit | stackPointer hv h16 => cases hind

end Source

end Iqemu64
